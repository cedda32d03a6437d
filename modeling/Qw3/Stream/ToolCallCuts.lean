import Qw3.Stream.ToolCall

/-!
# Cuts of a streamed tool call

* `merge` — adjacent pieces of a value put together; `atoms` — events with their
  values byte by byte, which is what `merge` looks at.
* `Same` — the same atoms, and the same parser as far as it still matters.
* `passTag_more`, `parse_value_more` — a pass with more bytes.
* `feed_append` — feeding two pieces is feeding them joined.
* `streamedCall_flatten` — **any cut of a text gives what the text fed at once
  gives.**
-/

namespace Qw3.Stream

open Search Chunks

/-! ## Events up to their pieces -/

/-- A piece of a value in front of merged events. -/
def prepend (value : Bytes) : List ToolCallStreamEvent → List ToolCallStreamEvent
  | ⟨.parameterData, value'⟩ :: rest => ⟨.parameterData, value ++ value'⟩ :: rest
  | rest => ⟨.parameterData, value⟩ :: rest

/-- Adjacent pieces of a parameter's value put together. -/
def merge : List ToolCallStreamEvent → List ToolCallStreamEvent
  | [] => []
  | event :: rest =>
      if event.kind = .parameterData then prepend event.value (merge rest) else event :: merge rest

/-- The bytes of a piece of a value, one by one, or another event as it is. -/
def ToolCallStreamEvent.atoms (event : ToolCallStreamEvent) : List (UInt8 ⊕ ToolCallStreamEvent) :=
  if event.kind = .parameterData then event.value.map .inl else [.inr event]

/-- Events with the values byte by byte. -/
def atoms (events : List ToolCallStreamEvent) : List (UInt8 ⊕ ToolCallStreamEvent) :=
  events.flatMap ToolCallStreamEvent.atoms

/-- The merged events of atoms. -/
def regroup : List (UInt8 ⊕ ToolCallStreamEvent) → List ToolCallStreamEvent
  | [] => []
  | .inl c :: rest => prepend [c] (regroup rest)
  | .inr event :: rest => event :: regroup rest

/-- No piece of a value is empty. -/
def Substantial (events : List ToolCallStreamEvent) : Prop :=
  ∀ event ∈ events, event.kind = .parameterData → event.value ≠ []

@[simp] theorem atoms_append (es es' : List ToolCallStreamEvent) :
    atoms (es ++ es') = atoms es ++ atoms es' := List.flatMap_append

theorem prepend_prepend (a b : Bytes) (events : List ToolCallStreamEvent) :
    prepend a (prepend b events) = prepend (a ++ b) events := by
  cases events with
  | nil => rfl
  | cons event rest =>
      obtain ⟨kind, value⟩ := event
      cases kind with
      | parameterData =>
          simp only [prepend, List.append_assoc]
      | toolStart => rfl
      | parameterStart => rfl
      | parameterEnd => rfl
      | toolEnd => rfl

theorem regroup_bytes (value : Bytes) (hne : value ≠ [])
    (rest : List (UInt8 ⊕ ToolCallStreamEvent)) :
    regroup (value.map .inl ++ rest) = prepend value (regroup rest) := by
  induction value with
  | nil => exact absurd rfl hne
  | cons c value ih =>
      rw [List.map_cons, List.cons_append, regroup]
      cases value with
      | nil => rfl
      | cons d value =>
          rw [ih (List.cons_ne_nil _ _), prepend_prepend]
          rfl

/-- Merging looks at the atoms only. -/
theorem merge_eq_regroup {events : List ToolCallStreamEvent} (h : Substantial events) :
    merge events = regroup (atoms events) := by
  induction events with
  | nil => rfl
  | cons event events ih =>
      have hrest : Substantial events := fun e he => h e (List.mem_cons_of_mem event he)
      have hatoms : atoms (event :: events) = event.atoms ++ atoms events := rfl
      rw [hatoms, merge, ih hrest]
      unfold ToolCallStreamEvent.atoms
      by_cases hkind : event.kind = .parameterData
      · rw [if_pos hkind, if_pos hkind, regroup_bytes _ (h event List.mem_cons_self hkind)]
      · rw [if_neg hkind, if_neg hkind]
        rfl

/-! ## The same parser, as far as it matters -/

namespace CanonicalToolCallStreamParser

variable {p q : CanonicalToolCallStreamParser} {events : List ToolCallStreamEvent}

/-- The parser with more bytes to read. -/
def more (p : CanonicalToolCallStreamParser) (bytes : Bytes) : CanonicalToolCallStreamParser :=
  { p with pending := p.pending ++ bytes }

/-- The parser without the bytes that it will never read. -/
def settled (p : CanonicalToolCallStreamParser) : CanonicalToolCallStreamParser :=
  if p.Over then { p with pending := [] } else p

/-- The same atoms, and the same parser as far as it still matters. -/
def Same (r r' : List ToolCallStreamEvent × CanonicalToolCallStreamParser) : Prop :=
  atoms r.1 = atoms r'.1 ∧ r.2.settled = r'.2.settled

theorem Same.refl (r : List ToolCallStreamEvent × CanonicalToolCallStreamParser) : Same r r :=
  ⟨rfl, rfl⟩

theorem Same.trans {r r' r'' : List ToolCallStreamEvent × CanonicalToolCallStreamParser}
    (h : Same r r') (h' : Same r' r'') : Same r r'' :=
  ⟨h.1.trans h'.1, h.2.trans h'.2⟩

theorem Same.symm {r r' : List ToolCallStreamEvent × CanonicalToolCallStreamParser}
    (h : Same r r') : Same r' r :=
  ⟨h.1.symm, h.2.symm⟩

/-- The same after the same events. -/
theorem Same.append {r r' : List ToolCallStreamEvent × CanonicalToolCallStreamParser}
    (h : Same r r') (events : List ToolCallStreamEvent) :
    Same (events ++ r.1, r.2) (events ++ r'.1, r'.2) := by
  refine ⟨?_, h.2⟩
  rw [atoms_append, atoms_append, h.1]

theorem settled_state (p : CanonicalToolCallStreamParser) : p.settled.state = p.state := by
  unfold settled
  split_ifs
  · rfl
  · rfl

theorem settled_error (p : CanonicalToolCallStreamParser) : p.settled.error = p.error := by
  unfold settled
  split_ifs
  · rfl
  · rfl

theorem over_settled : p.settled.Over ↔ p.Over := by
  unfold Over
  rw [settled_state]

/-- Parsers that are the same go on in the same way. -/
theorem feed_settled (h : p.settled = q.settled) (text : Bytes) :
    Same (p.feed text) (q.feed text) := by
  have hover : p.Over ↔ q.Over := by rw [← over_settled, h, over_settled]
  unfold feed
  by_cases hp : p.Over
  · rw [if_pos hp, if_pos (hover.mp hp)]
    exact ⟨rfl, h⟩
  · have hq := mt hover.mpr hp
    unfold settled at h
    rw [if_neg hp, if_neg hq] at h
    rw [h]
    exact Same.refl _

/-! ## Passes with more bytes -/

theorem judge_nil (state : ToolCallState) : judge state [] = .wait := by
  cases state with
  | toolOpen => simp [judge, consumeExact, tag_bytes]
  | functionOpen => simp [judge, judgeFunctionOpen, tag_bytes]
  | parameterOrFunctionEnd => rfl
  | toolEnd => simp [judge, consumeExact, tag_bytes]
  | parameterValue => rfl
  | complete => rfl
  | failed => rfl

theorem dropWhile_append_of_ne_nil {text : Bytes} (h : text.dropWhile isSpace ≠ [])
    (bytes : Bytes) : (text ++ bytes).dropWhile isSpace = text.dropWhile isSpace ++ bytes := by
  rw [List.dropWhile_append, if_neg (by simpa using h)]

theorem dropWhile_append_dropWhile (text bytes : Bytes) :
    (text.dropWhile isSpace ++ bytes).dropWhile isSpace = (text ++ bytes).dropWhile isSpace := by
  induction text with
  | nil => rfl
  | cons c text ih =>
      by_cases hc : isSpace c = true
      · rw [List.dropWhile_cons_of_pos hc, ih, List.cons_append, List.dropWhile_cons_of_pos hc]
      · rw [List.dropWhile_cons_of_neg hc]

/-- What a pass at a tag does with more bytes: it goes on as before, it fails as
before, or it waited and starts again. -/
theorem passTag_more (p : CanonicalToolCallStreamParser) (bytes : Bytes) :
    (∃ events q, p.passTag = (events, q, true) ∧
      (p.more bytes).passTag = (events, q.more bytes, true)) ∨
    (∃ q q', p.passTag = ([], q, false) ∧ q.Over ∧ q'.settled = q.settled ∧
      (p.more bytes).passTag = ([], q', false)) ∨
    ∃ q, p.passTag = ([], q, false) ∧ q.state = p.state ∧
      (q.more bytes).passTag = (p.more bytes).passTag := by
  cases hjudge : judge p.state (p.pending.dropWhile isSpace) with
  | wait =>
      right; right
      refine ⟨{ p with pending := p.pending.dropWhile isSpace }, ?_, rfl, ?_⟩
      · unfold passTag
        simp only [hjudge]
      · unfold passTag more
        simp only [dropWhile_append_dropWhile]
  | reject message =>
      right; left
      have hne : p.pending.dropWhile isSpace ≠ [] := by
        intro hnil
        rw [hnil, judge_nil] at hjudge
        cases hjudge
      have hmore : judge p.state (p.pending.dropWhile isSpace ++ bytes) = .reject message := by
        rw [judge_append (by rw [hjudge]; exact nofun), hjudge]
      refine ⟨{ p with pending := p.pending.dropWhile isSpace, state := .failed, error := message },
        { p with pending := p.pending.dropWhile isSpace ++ bytes, state := .failed,
                 error := message }, ?_, .inl rfl, rfl, ?_⟩
      · unfold passTag
        simp only [hjudge]
      · unfold passTag more
        simp only [dropWhile_append_of_ne_nil hne, hmore]
  | take count events next =>
      left
      have hne : p.pending.dropWhile isSpace ≠ [] := by
        intro hnil
        rw [hnil, judge_nil] at hjudge
        cases hjudge
      have hmore : judge p.state (p.pending.dropWhile isSpace ++ bytes) =
          .take count events next := by
        rw [judge_append (by rw [hjudge]; exact nofun), hjudge]
      obtain ⟨-, hcount, -⟩ := judge_take hjudge
      refine ⟨events,
        { p with pending := (p.pending.dropWhile isSpace).drop count, state := next,
                 started := p.started || p.state = .functionOpen,
                 tail := if next = .parameterValue then ⟨.optionalLf, []⟩ else p.tail }, ?_, ?_⟩
      · unfold passTag
        simp only [hjudge]
      · unfold passTag more
        simp only [dropWhile_append_of_ne_nil hne, hmore,
          List.drop_append_of_le_length hcount]

/-! ## A value with more bytes -/

/-- The parser after a piece of a value, which ends `n` bytes into what is pending. -/
def afterData (p : CanonicalToolCallStreamParser) (n : ℕ) : CanonicalToolCallStreamParser :=
  { p with tail := (p.tail.processParameterData (p.pending.take n) false).2,
           pending := p.pending.drop n }

/-- The events of that piece. -/
def dataAt (p : CanonicalToolCallStreamParser) (n : ℕ) : List ToolCallStreamEvent :=
  dataEvents (p.tail.processParameterData (p.pending.take n) false).1

/-- The parser after a value, whose closing tag begins `n` bytes into what is
pending. -/
def afterValue (p : CanonicalToolCallStreamParser) (n : ℕ) : CanonicalToolCallStreamParser :=
  { p with tail := (p.tail.processParameterData (p.pending.take n) true).2,
           pending := p.pending.drop (n + parameterCloseTag.length),
           state := .parameterOrFunctionEnd }

/-- The events of the end of that value. -/
def valueAt (p : CanonicalToolCallStreamParser) (n : ℕ) : List ToolCallStreamEvent :=
  dataEvents (p.tail.processParameterData (p.pending.take n) true).1 ++ [⟨.parameterEnd, []⟩]

theorem not_over_value (h : p.state = .parameterValue) : ¬ p.Over := by
  unfold Over
  rw [h]
  decide

theorem pass_close (h : p.state = .parameterValue) {close : ℕ}
    (hfind : find parameterCloseTag p.pending = some close) :
    p.pass = (p.valueAt close, p.afterValue close, true) := by
  unfold pass passParameterValue
  rw [if_pos h]
  simp only [hfind]
  rfl

theorem parse_close (h : p.state = .parameterValue) {close : ℕ}
    (hfind : find parameterCloseTag p.pending = some close) :
    p.parse = (p.valueAt close ++ (p.afterValue close).parse.1, (p.afterValue close).parse.2) :=
  parse_again (not_over_value h) (pass_close h hfind)

/-- Where the held-back end begins. -/
def safe (p : CanonicalToolCallStreamParser) : ℕ :=
  p.pending.length - longestSuffixPrefix p.pending parameterCloseTag

theorem parse_held (h : p.state = .parameterValue)
    (hfind : find parameterCloseTag p.pending = none) (hsafe : p.safe = 0) :
    p.parse = ([], p) := by
  refine parse_stop (not_over_value h) ?_
  unfold pass passParameterValue
  unfold safe at hsafe
  rw [if_pos h]
  simp only [hfind, hsafe, if_true]

/-- After a piece of a value, no byte of what is left is safe. -/
theorem find_drop_safe (hfind : find parameterCloseTag p.pending = none) (n : ℕ) :
    find parameterCloseTag (p.pending.drop n) = none := by
  rw [find_eq_none_iff] at hfind ⊢
  intro i hat
  refine hfind (n + i) ?_
  unfold OccursAt at hat ⊢
  rwa [List.drop_drop] at hat

theorem safe_afterData (n : ℕ) (hn : n ≤ p.safe) : (p.afterData n).safe = p.safe - n := by
  unfold safe longestSuffixPrefix at hn ⊢
  change (p.pending.drop n).length - heldBack _ (p.pending.drop n) = _
  rw [heldBack_drop parameterCloseTag_ne_nil hn, List.length_drop]
  omega

theorem parse_safe (h : p.state = .parameterValue)
    (hfind : find parameterCloseTag p.pending = none) (hsafe : p.safe ≠ 0) :
    p.parse = (p.dataAt p.safe, p.afterData p.safe) := by
  have hpass : p.pass = (p.dataAt p.safe, p.afterData p.safe, true) := by
    unfold pass passParameterValue
    rw [if_pos h]
    have hne : p.pending.length - longestSuffixPrefix p.pending parameterCloseTag ≠ 0 := hsafe
    simp only [hfind]
    rw [if_neg hne]
    rfl
  have hrest : (p.afterData p.safe).parse = ([], p.afterData p.safe) := by
    refine parse_held h (find_drop_safe hfind _) ?_
    rw [safe_afterData _ le_rfl, Nat.sub_self]
  rw [parse_again (not_over_value h) hpass, hrest, List.append_nil]

/-- Pieces of values, byte by byte. -/
theorem atoms_dataEvents (a b : Bytes) :
    atoms (dataEvents (a ++ b)) = atoms (dataEvents a) ++ atoms (dataEvents b) := by
  have hbytes : ∀ value : Bytes, atoms (dataEvents value) = value.map .inl := by
    intro value
    unfold dataEvents
    split_ifs with hnil
    · rw [hnil]
      rfl
    · exact List.append_nil _
  rw [hbytes, hbytes, hbytes, List.map_append]

/-- A piece of a value, and then another one, is both of them joined. -/
theorem afterData_afterData (p : CanonicalToolCallStreamParser) {n m : ℕ} (h : n ≤ m) :
    (p.afterData n).afterData (m - n) = p.afterData m ∧
      atoms (p.dataAt m) = atoms (p.dataAt n) ++ atoms ((p.afterData n).dataAt (m - n)) := by
  have htake : p.pending.take m =
      p.pending.take n ++ (p.pending.drop n).take (m - n) := by
    rw [← List.take_add, Nat.add_sub_cancel' h]
  have hprocess := ParameterTail.processParameterData_append p.tail (p.pending.take n)
    ((p.pending.drop n).take (m - n)) false
  rw [← htake] at hprocess
  constructor
  · unfold afterData
    simp only [hprocess, List.drop_drop, Nat.add_sub_cancel' h]
  · unfold dataAt
    rw [hprocess, atoms_dataEvents]
    rfl

/-- A piece of a value, and then its end, is the whole value. -/
theorem afterValue_afterData (p : CanonicalToolCallStreamParser) {n m : ℕ} (h : n ≤ m) :
    (p.afterData n).afterValue (m - n) = p.afterValue m ∧
      atoms (p.valueAt m) = atoms (p.dataAt n) ++ atoms ((p.afterData n).valueAt (m - n)) := by
  have htake : p.pending.take m =
      p.pending.take n ++ (p.pending.drop n).take (m - n) := by
    rw [← List.take_add, Nat.add_sub_cancel' h]
  have hprocess := ParameterTail.processParameterData_append p.tail (p.pending.take n)
    ((p.pending.drop n).take (m - n)) true
  rw [← htake] at hprocess
  have hdrop : n + (m - n + parameterCloseTag.length) = m + parameterCloseTag.length := by omega
  constructor
  · unfold afterValue afterData
    simp only [hprocess, List.drop_drop, hdrop]
  · unfold valueAt dataAt
    rw [hprocess, atoms_append, atoms_dataEvents, atoms_append, List.append_assoc]
    rfl

/-- A value that is cut where its safe part ends goes on as it would have. -/
theorem parse_value_more (h : p.state = .parameterValue)
    (hfind : find parameterCloseTag p.pending = none) (hsafe : p.safe ≠ 0) (bytes : Bytes) :
    Same (p.more bytes).parse (p.dataAt p.safe ++ ((p.afterData p.safe).more bytes).parse.1,
      ((p.afterData p.safe).more bytes).parse.2) := by
  have hlen : p.safe ≤ p.pending.length := Nat.sub_le _ _
  -- the first piece is the same with more bytes behind it
  have hfirst : (p.afterData p.safe).more bytes = (p.more bytes).afterData p.safe ∧
      p.dataAt p.safe = (p.more bytes).dataAt p.safe := by
    unfold afterData dataAt more
    simp only [List.take_append_of_le_length hlen, List.drop_append_of_le_length hlen]
    exact ⟨trivial, trivial⟩
  rw [hfirst.1, hfirst.2]
  have hstate : (p.more bytes).state = .parameterValue := h
  have hclear : find parameterCloseTag (p.more bytes).pending =
      (find parameterCloseTag ((p.more bytes).pending.drop p.safe)).map (p.safe + ·) := by
    have hsplit : (p.more bytes).pending =
        (p.more bytes).pending.take p.safe ++ (p.more bytes).pending.drop p.safe :=
      (List.take_append_drop _ _).symm
    have htake : ((p.more bytes).pending.take p.safe).length = p.safe := by
      rw [List.length_take, min_eq_left]
      exact hlen.trans (by unfold more; rw [List.length_append]; omega)
    have hleft := find_append_left (w := parameterCloseTag)
      (a := (p.more bytes).pending.take p.safe) (b := (p.more bytes).pending.drop p.safe) ?_
    · rw [← hsplit, htake] at hleft
      exact hleft
    · intro j hj hat
      rw [← hsplit] at hat
      rw [htake] at hj
      exact hj.not_ge (le_of_occursAt hfind hat)
  have hmono : p.safe ≤ (p.more bytes).safe := sub_heldBack_le parameterCloseTag_ne_nil
  generalize p.more bytes = q at hstate hclear hmono
  cases hrest : find parameterCloseTag (q.pending.drop p.safe) with
  | some k =>
      rw [hrest, Option.map_some] at hclear
      obtain ⟨hafter, hatoms⟩ := q.afterValue_afterData (Nat.le_add_right p.safe k)
      rw [Nat.add_sub_cancel_left] at hafter hatoms
      rw [parse_close hstate hclear, parse_close (p := q.afterData p.safe) hstate hrest, hafter]
      refine ⟨?_, rfl⟩
      rw [atoms_append, atoms_append, atoms_append, hatoms, List.append_assoc]
  | none =>
      rw [hrest, Option.map_none] at hclear
      rw [parse_safe hstate hclear (by omega)]
      obtain ⟨hafter, hatoms⟩ := q.afterData_afterData hmono
      by_cases heq : p.safe = q.safe
      · rw [parse_held (p := q.afterData p.safe) hstate hrest
          (by rw [safe_afterData _ hmono]; omega), List.append_nil, heq]
        exact Same.refl _
      · have hrestsafe : (q.afterData p.safe).safe = q.safe - p.safe := safe_afterData _ hmono
        rw [parse_safe (p := q.afterData p.safe) hstate hrest (by omega), hrestsafe, hafter]
        refine ⟨?_, rfl⟩
        rw [atoms_append, hatoms]

/-! ## Feeding in pieces -/

/-- The loop depends on its first pass only. -/
theorem parse_congr (hp : ¬ p.Over) (hq : ¬ q.Over) (h : p.pass = q.pass) : p.parse = q.parse := by
  rcases hr : q.pass with ⟨events, r, again⟩
  cases again with
  | false => rw [parse_stop hp (h.trans hr), parse_stop hq hr]
  | true => rw [parse_again hp (h.trans hr), parse_again hq hr]

theorem pass_tag (h : p.state ≠ .parameterValue) : p.pass = p.passTag := if_neg h

theorem feed_over (h : p.Over) (bytes : Bytes) : p.feed bytes = ([], p) := if_pos h

theorem feed_eq (h : ¬ p.Over) (bytes : Bytes) : p.feed bytes = (p.more bytes).parse := if_neg h

/-- **Parsing goes on after more bytes as it would have with them.** -/
theorem parse_more (h : ¬ p.Over) (bytes : Bytes) :
    Same (p.more bytes).parse (p.parse.1 ++ (p.parse.2.feed bytes).1, (p.parse.2.feed bytes).2) := by
  induction hn : p.pending.length using Nat.strong_induction_on generalizing p with
  | _ n ih =>
  have hmore : ¬ (p.more bytes).Over := h
  -- a pass that is the same with more bytes
  have hagain : ∀ events q, p.pass = (events, q, true) →
      (p.more bytes).pass = (events, q.more bytes, true) →
      Same (p.more bytes).parse (p.parse.1 ++ (p.parse.2.feed bytes).1, (p.parse.2.feed bytes).2) := by
    intro events q hpass hpass'
    rw [parse_again h hpass, parse_again hmore hpass']
    by_cases hq : q.Over
    · have hq' : (q.more bytes).Over := hq
      rw [parse_over hq, parse_over hq', feed_over hq]
      refine ⟨by simp, ?_⟩
      unfold settled
      rw [if_pos hq, if_pos hq']
      rfl
    · have hrest := (ih _ (hn ▸ pass_length hpass) hq rfl).append events
      rwa [← List.append_assoc] at hrest
  by_cases hvalue : p.state = .parameterValue
  · cases hfind : find parameterCloseTag p.pending with
    | some close =>
        have hend := (find_eq_some_iff.mp hfind).2.1.le parameterCloseTag_ne_nil
        have hfind' : find parameterCloseTag (p.more bytes).pending = some close :=
          find_append_of_some parameterCloseTag_ne_nil hfind bytes
        refine hagain _ _ (pass_close hvalue hfind) ?_
        have hstate' : (p.more bytes).state = .parameterValue := hvalue
        have htake : (p.more bytes).pending.take close = p.pending.take close :=
          List.take_append_of_le_length (by omega)
        have hdrop : (p.more bytes).pending.drop (close + parameterCloseTag.length) =
            p.pending.drop (close + parameterCloseTag.length) ++ bytes :=
          List.drop_append_of_le_length hend
        rw [pass_close hstate' hfind']
        unfold valueAt afterValue
        rw [htake, hdrop]
        rfl
    | none =>
        by_cases hsafe : p.safe = 0
        · rw [parse_held hvalue hfind hsafe, feed_eq h]
          exact Same.refl _
        · have hover : ¬ (p.afterData p.safe).Over := h
          rw [parse_safe hvalue hfind hsafe, feed_eq hover]
          exact parse_value_more hvalue hfind hsafe bytes
  · have hpass := pass_tag hvalue
    have hpass' : (p.more bytes).pass = (p.more bytes).passTag := pass_tag hvalue
    rcases p.passTag_more bytes with ⟨events, q, hp, hp'⟩ | ⟨q, q', hp, hq, hsettled, hp'⟩ |
      ⟨q, hp, hstate, hp'⟩
    · exact hagain events q (hpass.trans hp) (hpass'.trans hp')
    · rw [parse_stop h (hpass.trans hp), parse_stop hmore (hpass'.trans hp'), feed_over hq]
      exact ⟨rfl, hsettled⟩
    · have hover : ¬ q.Over := by
        unfold Over
        rw [hstate]
        exact h
      have hqmore : ¬ (q.more bytes).Over := hover
      have hqstate : (q.more bytes).state ≠ .parameterValue := hstate ▸ hvalue
      rw [parse_stop h (hpass.trans hp), feed_eq hover,
        parse_congr hmore hqmore (by rw [hpass', pass_tag hqstate, hp'])]
      exact Same.refl _

/-- **Feeding two pieces is feeding them joined.** -/
theorem feed_append (p : CanonicalToolCallStreamParser) (a b : Bytes) :
    Same (p.feed (a ++ b)) ((p.feed a).1 ++ ((p.feed a).2.feed b).1, ((p.feed a).2.feed b).2) := by
  by_cases h : p.Over
  · simp only [feed_over h]
    exact Same.refl _
  · have hmore : (p.more a).more b = p.more (a ++ b) := by
      unfold more
      rw [List.append_assoc]
    rw [feed_eq h, feed_eq h, ← hmore]
    exact parse_more (p := p.more a) h b

/-- Any pieces of a text, fed in turn. -/
theorem pushAll_feed (pieces : List Bytes) :
    Same (pushAll feed {} pieces) (feed {} pieces.flatten) := by
  refine @pushAll_induction _ _ _ feed {}
    (fun pieces events p => Same (events, p) (feed {} pieces.flatten)) ?_ ?_ pieces
  · have hwait : judge (more {} []).state ((more {} []).pending.dropWhile isSpace) = .wait :=
      judge_nil _
    have hfeed : feed {} [] = ([], {}) := by
      rw [feed_eq (by decide)]
      refine parse_stop (by decide) ?_
      rw [pass_tag (by decide)]
      unfold passTag
      simp only [hwait]
      rfl
    rw [List.flatten_nil, hfeed]
    exact Same.refl _
  · intro pieces events p piece h
    have hflat : (pieces ++ [piece]).flatten = pieces.flatten ++ piece := by simp
    rw [hflat]
    refine Same.trans ?_ (feed_append {} pieces.flatten piece).symm
    obtain ⟨hatoms, hsettled⟩ := feed_settled h.2 piece
    refine ⟨?_, hsettled⟩
    rw [atoms_append, atoms_append, hatoms, h.1]

/-- Parsers that are the same finish in the same way. -/
theorem finish_settled (h : p.settled = q.settled) : Same p.finish q.finish := by
  have hfeed := feed_settled h []
  unfold finish
  generalize p.feed [] = r at hfeed
  generalize q.feed [] = r' at hfeed
  obtain ⟨hatoms, hsettled⟩ := hfeed
  have hover : r.2.Over ↔ r'.2.Over := by rw [← over_settled, hsettled, over_settled]
  by_cases hr : r.2.Over
  · simp only [if_pos hr, if_pos (hover.mp hr)]
    exact ⟨hatoms, hsettled⟩
  · have hr' := mt hover.mpr hr
    unfold settled at hsettled
    rw [if_neg hr, if_neg hr'] at hsettled
    simp only [if_neg hr', hsettled]
    exact ⟨hatoms, rfl⟩

end CanonicalToolCallStreamParser

/-! ## No empty pieces -/

theorem substantial_append {es es' : List ToolCallStreamEvent} (h : Substantial es)
    (h' : Substantial es') : Substantial (es ++ es') := by
  intro event hmem
  rcases List.mem_append.mp hmem with hmem | hmem
  · exact h event hmem
  · exact h' event hmem

theorem substantial_dataEvents (value : Bytes) :
    Substantial (CanonicalToolCallStreamParser.dataEvents value) := by
  intro event hmem hkind
  unfold CanonicalToolCallStreamParser.dataEvents at hmem
  split_ifs at hmem with hnil
  · cases hmem
  · rw [List.mem_singleton.mp hmem]
    exact hnil

/-- The events at a tag are no pieces of a value. -/
theorem judge_events {state next : ToolCallState} {pending : Bytes} {count : ℕ}
    {events : List ToolCallStreamEvent} (h : judge state pending = .take count events next) :
    ∀ event ∈ events, event.kind ≠ .parameterData := by
  have hexact : ∀ tag label events' next', (∀ event ∈ events', event.kind ≠ .parameterData) →
      consumeExact pending tag label events' next' = .take count events next →
      ∀ event ∈ events, event.kind ≠ .parameterData := by
    intro tag label events' next' hevents heq
    unfold consumeExact at heq
    split_ifs at heq
    obtain ⟨-, rfl, -⟩ := Verdict.take.inj heq
    exact hevents
  cases state with
  | toolOpen => exact hexact _ _ _ _ (by simp) h
  | toolEnd => exact hexact _ _ _ _ (by simp) h
  | functionOpen =>
      simp only [judge, judgeFunctionOpen] at h
      split_ifs at h
      cases hfind : find closeAngle (pending.drop functionOpenTag.length) with
      | none =>
          rw [hfind] at h
          cases h
      | some n =>
          simp only [hfind] at h
          split_ifs at h
          obtain ⟨-, rfl, -⟩ := Verdict.take.inj h
          simp
  | parameterOrFunctionEnd =>
      simp only [judge, judgeParameterOrFunctionEnd] at h
      split_ifs at h
      · obtain ⟨-, rfl, -⟩ := Verdict.take.inj h
        simp
      · cases hfind : find closeAngle (pending.drop parameterOpenTag.length) with
        | none =>
            rw [hfind] at h
            cases h
        | some n =>
            simp only [hfind] at h
            split_ifs at h
            obtain ⟨-, rfl, -⟩ := Verdict.take.inj h
            simp
  | parameterValue => cases h
  | complete => cases h
  | failed => cases h

namespace CanonicalToolCallStreamParser

variable {p q : CanonicalToolCallStreamParser} {events : List ToolCallStreamEvent} {again : Bool}

theorem substantial_pass (h : p.pass = (events, q, again)) : Substantial events := by
  by_cases hvalue : p.state = .parameterValue
  · cases hfind : find parameterCloseTag p.pending with
    | some close =>
        obtain ⟨rfl, -⟩ := Prod.mk.inj ((pass_close hvalue hfind).symm.trans h)
        refine substantial_append (substantial_dataEvents _) ?_
        simp [Substantial]
    | none =>
        unfold pass passParameterValue at h
        rw [if_pos hvalue] at h
        simp only [hfind] at h
        split_ifs at h
        · obtain ⟨rfl, -⟩ := h
          simp [Substantial]
        · obtain ⟨rfl, -⟩ := h
          exact substantial_dataEvents _
  · rw [pass_tag hvalue] at h
    unfold passTag at h
    cases hjudge : judge p.state (p.pending.dropWhile isSpace) with
    | wait =>
        simp only [hjudge] at h
        obtain ⟨rfl, -⟩ := h
        simp [Substantial]
    | reject message =>
        simp only [hjudge] at h
        obtain ⟨rfl, -⟩ := h
        simp [Substantial]
    | take count events' next =>
        simp only [hjudge] at h
        obtain ⟨rfl, -⟩ := h
        intro event hmem hkind
        exact absurd hkind (judge_events hjudge event hmem)

theorem substantial_parse (p : CanonicalToolCallStreamParser) : Substantial p.parse.1 := by
  induction hn : p.pending.length using Nat.strong_induction_on generalizing p with
  | _ n ih =>
  by_cases h : p.Over
  · rw [parse_over h]
    simp [Substantial]
  · rcases hp : p.pass with ⟨events, q, again⟩
    cases again with
    | false =>
        rw [parse_stop h hp]
        exact substantial_pass hp
    | true =>
        rw [parse_again h hp]
        exact substantial_append (substantial_pass hp) (ih _ (hn ▸ pass_length hp) q rfl)

theorem substantial_feed (p : CanonicalToolCallStreamParser) (text : Bytes) :
    Substantial (p.feed text).1 := by
  unfold feed
  split_ifs
  · simp [Substantial]
  · exact substantial_parse _

theorem substantial_finish (p : CanonicalToolCallStreamParser) : Substantial p.finish.1 := by
  unfold finish
  simp only
  split_ifs
  · exact substantial_feed p []
  · exact substantial_feed p []

/-! ## Any cut of a text -/

/-- All events of the pieces of a text and of `finish`, and the parser at the end. -/
def streamedCall (pieces : List Bytes) :
    List ToolCallStreamEvent × CanonicalToolCallStreamParser :=
  let r := pushAll feed {} pieces
  (r.1 ++ r.2.finish.1, r.2.finish.2)

theorem substantial_streamedCall (pieces : List Bytes) : Substantial (streamedCall pieces).1 := by
  refine substantial_append ?_ (substantial_finish _)
  exact @pushAll_induction _ _ _ feed {} (fun _ events _ => Substantial events)
    (by simp [Substantial])
    (fun _ _ p piece h => substantial_append h (p.substantial_feed piece)) pieces

/-- **Any cut of a text gives what the text fed at once gives.** -/
theorem streamedCall_flatten (pieces : List Bytes) :
    merge (streamedCall pieces).1 = merge (streamedCall [pieces.flatten]).1 ∧
      (streamedCall pieces).2.state = (streamedCall [pieces.flatten]).2.state ∧
      (streamedCall pieces).2.error = (streamedCall [pieces.flatten]).2.error := by
  have hfeed : Same (pushAll feed {} pieces) (pushAll feed {} [pieces.flatten]) := by
    have hone := pushAll_feed [pieces.flatten]
    rw [List.flatten_singleton] at hone
    exact (pushAll_feed pieces).trans hone.symm
  obtain ⟨hatoms, hsettled⟩ := finish_settled hfeed.2
  refine ⟨?_, ?_, ?_⟩
  · rw [merge_eq_regroup (substantial_streamedCall _), merge_eq_regroup (substantial_streamedCall _)]
    unfold streamedCall
    rw [atoms_append, atoms_append, hfeed.1, hatoms]
  · have h := congrArg state hsettled
    rwa [settled_state, settled_state] at h
  · have h := congrArg error hsettled
    rwa [settled_error, settled_error] at h

end CanonicalToolCallStreamParser

end Qw3.Stream
