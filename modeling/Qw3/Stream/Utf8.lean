import Qw3.Lib.Chunks
import Qw3.Stream.Bytes

/-!
# The repair of a UTF-8 stream

* `takeCompleteUtf8`, `flushUtf8Pending` — the source's; `takeStep` is one pass
  of the loop over what is left of the buffer.
* `takeLoop_append` — a pass made before more bytes came is made with them, too.
* `streamingRepair` — **the repair loses nothing** exactly where no lead byte
  whose sequence the text's end cuts off is followed by an ASCII byte.
-/

namespace Qw3.Stream

open Chunks

/-! ## The repair -/

/-- One pass of the loop of `take_complete_utf8` over the bytes from `i` on: what
it appends, and the bytes it leaves; `none` where the loop ends.  What is left of
`limit` is their number less `holdback`. -/
def takeStep (holdback : ℕ) (rest : Bytes) : Option (Bytes × Bytes) :=
  match rest with
  | [] => none
  | c₀ :: tail =>
      if rest.length ≤ holdback then none
      else
        let len := utf8ExpectedLen c₀
        if len = 0 then some (replacementChar, tail)
        else if len > rest.length ∨ len > rest.length - holdback then none
        else if (tail.take (len - 1)).all utf8Cont then some (rest.take len, rest.drop len)
        else some (replacementChar, tail)

theorem takeStep_length {holdback : ℕ} {rest out left : Bytes}
    (h : takeStep holdback rest = some (out, left)) : left.length < rest.length := by
  cases rest with
  | nil => cases h
  | cons c₀ tail =>
      simp only [takeStep] at h
      split_ifs at h
      all_goals
        obtain ⟨-, rfl⟩ := Prod.mk.inj (Option.some.inj h)
        simp only [List.length_drop, List.length_cons]
        omega

/-- The loop of `take_complete_utf8`: what it appends to `out`, and what it leaves
in `pending`. -/
def takeLoop (holdback : ℕ) (rest : Bytes) : Bytes × Bytes :=
  match _h : takeStep holdback rest with
  | none => ([], rest)
  | some (out, left) =>
      let r := takeLoop holdback left
      (out ++ r.1, r.2)
termination_by rest.length
decreasing_by exact takeStep_length ‹_›

/-- `take_complete_utf8`: what it returns, and `pending` afterwards. -/
def takeCompleteUtf8 (pending piece : Bytes) (holdback : ℕ) : Bytes × Bytes :=
  takeLoop holdback (pending ++ piece)

/-- `flush_utf8_pending`. -/
def flushUtf8Pending (pending : Bytes) (replaceIncomplete : Bool) : Bytes × Bytes :=
  if pending = [] then ([], [])
  else
    let r := takeCompleteUtf8 pending [] 0
    if r.2 = [] then r
    else (if replaceIncomplete then r.1 ++ replacementChar else r.1, [])

/-- All that the calls and the flush after them return, and `pending` at the end. -/
def streamed (calls : List (Bytes × ℕ)) : Bytes × Bytes :=
  let r := pushAll (fun pending call => takeCompleteUtf8 pending call.1 call.2) [] calls
  let f := flushUtf8Pending r.2 true
  (r.1 ++ f.1, f.2)

/-! ## One pass -/

variable {holdback : ℕ} {rest out left more text : Bytes}

/-- What a pass does: a byte that begins no sequence is replaced, and a whole
sequence is kept. -/
theorem takeStep_cases (h : takeStep holdback rest = some (out, left)) :
    (∃ c, rest = c :: left ∧ out = replacementChar ∧ isAscii c = false) ∨
    rest = out ++ left ∧ IsSequence out := by
  cases rest with
  | nil => cases h
  | cons c₀ tail =>
      simp only [takeStep] at h
      split_ifs at h with hhold hlen hfits hcont
      · obtain ⟨rfl, rfl⟩ := Prod.mk.inj (Option.some.inj h)
        exact .inl ⟨c₀, rfl, rfl, not_ascii_of_len (by omega)⟩
      · obtain ⟨rfl, rfl⟩ := Prod.mk.inj (Option.some.inj h)
        right
        obtain ⟨n, hn⟩ := Nat.exists_eq_succ_of_ne_zero hlen
        rw [hn] at hcont hfits ⊢
        rw [Nat.succ_sub_one] at hcont
        simp only [List.length_cons] at hfits
        refine ⟨(List.take_append_drop _ _).symm, ?_, ?_, List.cons_ne_nil _ _⟩
        · rintro c ⟨⟩
          rw [hn, List.length_take, List.length_cons]
          omega
        · exact List.all_eq_true.mp hcont
      · obtain ⟨rfl, rfl⟩ := Prod.mk.inj (Option.some.inj h)
        refine .inl ⟨c₀, rfl, rfl, not_ascii_of_len ?_⟩
        intro hone
        rw [hone] at hcont
        exact hcont rfl

/-- A pass is made in the same way when more bytes follow. -/
theorem takeStep_append (h : takeStep holdback rest = some (out, left)) (more : Bytes) :
    takeStep 0 (rest ++ more) = some (out, left ++ more) := by
  cases rest with
  | nil => cases h
  | cons c₀ tail =>
      simp only [takeStep] at h
      simp only [List.cons_append, takeStep, List.length_cons, List.length_append]
      rw [if_neg (by omega)]
      split_ifs at h with hhold hlen hfits hcont
      · obtain ⟨rfl, rfl⟩ := Prod.mk.inj (Option.some.inj h)
        rw [if_pos hlen]
      · obtain ⟨rfl, rfl⟩ := Prod.mk.inj (Option.some.inj h)
        simp only [List.length_cons, not_or, not_lt] at hfits
        rw [if_neg hlen, if_neg (by omega), List.take_append_of_le_length (by omega), if_pos hcont,
          ← List.cons_append, List.take_append_of_le_length (by simp; omega),
          List.drop_append_of_le_length (by simp; omega)]
      · obtain ⟨rfl, rfl⟩ := Prod.mk.inj (Option.some.inj h)
        simp only [List.length_cons, not_or, not_lt] at hfits
        rw [if_neg hlen, if_neg (by omega), List.take_append_of_le_length (by omega), if_neg hcont]

/-- A whole sequence is kept by a pass with no holdback. -/
theorem takeStep_sequence (h : IsSequence out) (left : Bytes) :
    takeStep 0 (out ++ left) = some (out, left) := by
  obtain ⟨hlength, hcont, hne⟩ := h
  obtain ⟨c₀, tail, rfl⟩ := List.exists_cons_of_ne_nil hne
  have hlen : tail.length + 1 = utf8ExpectedLen c₀ := hlength c₀ rfl
  simp only [List.cons_append, takeStep, List.length_cons, List.length_append, ← hlen]
  rw [if_neg (by omega), if_neg (by omega), if_neg (by omega), Nat.add_sub_cancel,
    List.take_left, if_pos (List.all_eq_true.mpr (show ∀ b ∈ tail, _ from hcont)),
    List.take_succ_cons, List.take_left, List.drop_succ_cons, List.drop_left]

/-- The end of a text that begins with a lead byte and is too short for what it
declares. -/
def CutOff (s : Bytes) : Prop := ∃ c tail, s = c :: tail ∧ s.length < utf8ExpectedLen c

/-- With no holdback, the loop ends where nothing is left, or a sequence is cut
off. -/
theorem takeStep_eq_none : takeStep 0 rest = none ↔ rest = [] ∨ CutOff rest := by
  cases rest with
  | nil => simp [takeStep]
  | cons c₀ tail =>
      have hcut : CutOff (c₀ :: tail) ↔ (c₀ :: tail).length < utf8ExpectedLen c₀ := by
        constructor
        · rintro ⟨c, tail', heq, hlt⟩
          obtain ⟨rfl, rfl⟩ := List.cons.inj heq
          exact hlt
        · intro hlt
          exact ⟨c₀, tail, rfl, hlt⟩
      rw [hcut]
      simp only [takeStep, reduceCtorEq, false_or]
      rw [if_neg (by simp)]
      by_cases hlen : utf8ExpectedLen c₀ = 0
      · simp [hlen]
      · rw [if_neg hlen]
        by_cases hfits : (c₀ :: tail).length < utf8ExpectedLen c₀
        · rw [if_pos (.inl hfits)]
          exact ⟨fun _ => hfits, fun _ => rfl⟩
        · rw [if_neg (by simpa using hfits)]
          split_ifs <;> simpa using hfits

/-- What a pass consumes holds no cut-off end. -/
theorem CutOff.suffix_left {s : Bytes} (hs : CutOff s) (hsuffix : s <:+ rest)
    (h : takeStep 0 rest = some (out, left)) : s <:+ left := by
  obtain ⟨c, tail, rfl, hlt⟩ := hs
  have hne : c :: tail ≠ rest := by
    rintro rfl
    rw [takeStep_eq_none.mpr (.inr ⟨c, tail, rfl, hlt⟩)] at h
    cases h
  rcases takeStep_cases h with ⟨c', rfl, -, -⟩ | ⟨rfl, hseq⟩
  · exact (List.suffix_cons_iff.mp hsuffix).resolve_left hne
  · rcases List.suffix_or_suffix_of_suffix hsuffix (List.suffix_append out left) with hin | ⟨d, hd⟩
    · exact hin
    · cases d with
      | nil => exact ⟨[], hd.symm⟩
      | cons b d =>
          -- the lead byte would stand among the continuation bytes
          rw [List.cons_append, List.cons.injEq] at hd
          obtain ⟨rfl, rfl⟩ := hd
          rw [← List.cons_append, List.suffix_append_self_iff] at hsuffix
          obtain ⟨c₀, cs, rfl⟩ := List.exists_cons_of_ne_nil hseq.ne_nil
          rcases List.suffix_cons_iff.mp hsuffix with heq | hin
          · exact absurd (by rw [← heq]; rfl) hne
          · have := utf8ExpectedLen_of_cont (hseq.cont b (hin.subset List.mem_cons_self))
            omega

/-! ## The loop -/

theorem takeLoop_of_none (h : takeStep holdback rest = none) : takeLoop holdback rest = ([], rest) := by
  rw [takeLoop]
  split
  · rfl
  · simp_all

theorem takeLoop_of_some (h : takeStep holdback rest = some (out, left)) :
    takeLoop holdback rest = (out ++ (takeLoop holdback left).1, (takeLoop holdback left).2) := by
  rw [takeLoop]
  split <;> simp_all

/-- The loop goes on after more bytes as it would have with them. -/
theorem takeLoop_append (holdback : ℕ) (rest more : Bytes) :
    takeLoop 0 (rest ++ more) =
      ((takeLoop holdback rest).1 ++ (takeLoop 0 ((takeLoop holdback rest).2 ++ more)).1,
        (takeLoop 0 ((takeLoop holdback rest).2 ++ more)).2) := by
  fun_induction takeLoop holdback rest with
  | case1 rest hnone => simp
  | case2 rest out left hsome r ih =>
      rw [takeLoop_of_some (takeStep_append hsome more), ih, List.append_assoc]

/-- Where the loop stops, no pass is left to make. -/
theorem takeStep_takeLoop (holdback : ℕ) (rest : Bytes) :
    takeStep holdback (takeLoop holdback rest).2 = none := by
  fun_induction takeLoop holdback rest with
  | case1 rest hnone => exact hnone
  | case2 rest out left hsome r ih => exact ih

/-- What the loop returns is whole sequences. -/
theorem complete_takeLoop (holdback : ℕ) (rest : Bytes) : Complete (takeLoop holdback rest).1 := by
  fun_induction takeLoop holdback rest with
  | case1 rest hnone => exact .nil
  | case2 rest out left hsome r ih =>
      refine .cons ?_ ih
      rcases takeStep_cases hsome with ⟨c, -, rfl, -⟩ | ⟨-, hseq⟩
      · exact isSequence_replacementChar
      · exact hseq

/-- Each ASCII byte is in what the loop returns, or in what it leaves. -/
theorem filter_takeLoop (holdback : ℕ) (rest : Bytes) :
    rest.filter isAscii = (takeLoop holdback rest).1.filter isAscii ++
      (takeLoop holdback rest).2.filter isAscii := by
  fun_induction takeLoop holdback rest with
  | case1 rest hnone => rfl
  | case2 rest out left hsome r ih =>
      rw [List.filter_append, List.append_assoc, ← ih]
      rcases takeStep_cases hsome with ⟨c, rfl, rfl, hc⟩ | ⟨rfl, -⟩
      · rw [List.filter_cons_of_neg (by rw [hc]; exact Bool.false_ne_true)]
        rfl
      · exact List.filter_append _ _

/-- Whole sequences are returned as they are. -/
theorem takeLoop_of_complete (h : Complete rest) : takeLoop 0 rest = (rest, []) := by
  induction h with
  | nil => exact takeLoop_of_none rfl
  | cons hs _ ih => rw [takeLoop_of_some (takeStep_sequence hs _), ih]

/-- A cut-off end is left by the loop, all of it. -/
theorem CutOff.suffix_takeLoop {s : Bytes} (hs : CutOff s) (hsuffix : s <:+ rest) :
    s <:+ (takeLoop 0 rest).2 := by
  generalize hz : 0 = holdback
  fun_induction takeLoop holdback rest with
  | case1 rest hnone => exact hsuffix
  | case2 rest out left hsome r ih => exact ih (hs.suffix_left hsuffix (hz ▸ hsome))

theorem takeLoop_suffix (holdback : ℕ) (rest : Bytes) : (takeLoop holdback rest).2 <:+ rest := by
  fun_induction takeLoop holdback rest with
  | case1 rest hnone => exact List.suffix_refl rest
  | case2 rest out left hsome r ih =>
      rcases takeStep_cases hsome with ⟨c, rfl, -, -⟩ | ⟨rfl, -⟩
      · exact ih.trans (List.suffix_cons c left)
      · exact ih.trans (List.suffix_append out left)

/-! ## The stream -/

/-- The repair of a whole text: what the loop returns of it, and a replacement
for the cut-off end. -/
def repaired (text : Bytes) : Bytes :=
  (takeLoop 0 text).1 ++ if (takeLoop 0 text).2 = [] then [] else replacementChar

/-- The flush repairs what is pending. -/
theorem flushUtf8Pending_eq (pending : Bytes) :
    flushUtf8Pending pending true = (repaired pending, []) := by
  unfold flushUtf8Pending takeCompleteUtf8 repaired
  rw [List.append_nil]
  by_cases hp : pending = []
  · rw [if_pos hp, hp, takeLoop_of_none rfl]
    rfl
  · rw [if_neg hp]
    by_cases hleft : (takeLoop 0 pending).2 = []
    · rw [if_pos hleft, if_pos hleft, List.append_nil, ← hleft]
    · rw [if_neg hleft, if_neg hleft, if_pos rfl]

/-- What holds between calls: what is pending goes on as the text would. -/
def Follows (calls : List (Bytes × ℕ)) (out pending : Bytes) : Prop :=
  ∀ more, takeLoop 0 ((calls.map Prod.fst).flatten ++ more) =
    (out ++ (takeLoop 0 (pending ++ more)).1, (takeLoop 0 (pending ++ more)).2)

theorem Follows.call {calls : List (Bytes × ℕ)} {pending : Bytes} (h : Follows calls out pending)
    (call : Bytes × ℕ) : Follows (calls ++ [call])
      (out ++ (takeCompleteUtf8 pending call.1 call.2).1)
      (takeCompleteUtf8 pending call.1 call.2).2 := by
  intro more
  have hflat : ((calls ++ [call]).map Prod.fst).flatten ++ more =
      (calls.map Prod.fst).flatten ++ (call.1 ++ more) := by simp
  rw [hflat, h, ← List.append_assoc, takeLoop_append call.2 (pending ++ call.1) more,
    List.append_assoc]
  rfl

/-- Any calls and the flush repair the text as a whole, and leave nothing. -/
theorem streamed_eq (calls : List (Bytes × ℕ)) :
    streamed calls = (repaired (calls.map Prod.fst).flatten, []) := by
  have hfollows : ∀ calls, Follows calls _ _ := @pushAll_induction _ _ _
    (fun pending (call : Bytes × ℕ) => takeCompleteUtf8 pending call.1 call.2) [] Follows
    (fun more => rfl) fun calls out pending call h => h.call call
  have h := hfollows calls []
  unfold streamed
  generalize pushAll _ [] calls = r at h ⊢
  rw [List.append_nil, List.append_nil] at h
  simp only [flushUtf8Pending_eq]
  unfold repaired
  rw [h, List.append_assoc]

theorem complete_repaired (text : Bytes) : Complete (repaired text) := by
  apply (complete_takeLoop 0 text).append
  split
  · exact .nil
  · exact isSequence_replacementChar.complete

theorem repaired_of_complete (h : Complete text) : repaired text = text := by
  unfold repaired
  rw [takeLoop_of_complete h, if_pos rfl, List.append_nil]

theorem filter_repaired (text : Bytes) :
    (repaired text).filter isAscii = (takeLoop 0 text).1.filter isAscii := by
  unfold repaired
  rw [List.filter_append]
  split
  · exact List.append_nil _
  · exact List.append_nil _

/-- The ASCII bytes are all there exactly when no cut-off end holds any. -/
theorem ascii_repaired (text : Bytes) :
    List.Sublist (text.filter isAscii) (repaired text) ↔
      ∀ s, s <:+ text → CutOff s → ∀ b ∈ s, isAscii b = false := by
  have hleft : List.Sublist (text.filter isAscii) (repaired text) ↔
      ∀ b ∈ (takeLoop 0 text).2, isAscii b = false := by
    rw [filter_takeLoop 0 text]
    constructor
    · intro hsub
      have hfilter := hsub.filter isAscii
      rw [filter_repaired, ← filter_takeLoop, List.filter_filter] at hfilter
      simp only [Bool.and_self] at hfilter
      have hlen := hfilter.length_le
      change (text.filter isAscii).length ≤ _ at hlen
      rw [filter_takeLoop 0 text] at hlen
      rw [List.length_append] at hlen
      have hnil : (takeLoop 0 text).2.filter isAscii = [] :=
        List.eq_nil_of_length_eq_zero (by omega)
      intro b hb
      exact Bool.eq_false_iff.mpr (List.filter_eq_nil_iff.mp hnil b hb)
    · intro hnone
      rw [List.filter_eq_nil_iff.mpr fun b hb => Bool.eq_false_iff.mp (hnone b hb),
        List.append_nil]
      exact List.filter_sublist.trans (List.sublist_append_left _ _)
  rw [hleft]
  constructor
  · intro hnone s hsuffix hs b hb
    exact hnone b ((hs.suffix_takeLoop hsuffix).subset hb)
  · intro hall b hb
    rcases takeStep_eq_none.mp (takeStep_takeLoop 0 text) with hnil | hs
    · rw [hnil] at hb
      cases hb
    · exact hall _ (takeLoop_suffix 0 text) hs b hb

/-- **The repair loses nothing** exactly for the texts in which no lead byte
whose sequence the end cuts off is followed by an ASCII byte: however a text is
cut into calls, and whatever they hold back, the output is one, it is whole
sequences, it has every ASCII byte in order, it is the text where the text is
whole sequences, and nothing is pending. -/
theorem streamingRepair (text : Bytes) :
    (∀ calls : List (Bytes × ℕ), (calls.map Prod.fst).flatten = text →
      (∀ calls' : List (Bytes × ℕ), (calls'.map Prod.fst).flatten = text →
        (streamed calls).1 = (streamed calls').1) ∧
      Complete (streamed calls).1 ∧
      List.Sublist (text.filter isAscii) (streamed calls).1 ∧
      (Complete text → (streamed calls).1 = text) ∧
      (streamed calls).2 = []) ↔
    ∀ c tail, c :: tail <:+ text → (c :: tail).length < utf8ExpectedLen c →
      ∀ b ∈ tail, isAscii b = false := by
  have hcut : (∀ c tail, c :: tail <:+ text → (c :: tail).length < utf8ExpectedLen c →
      ∀ b ∈ tail, isAscii b = false) ↔
        ∀ s, s <:+ text → CutOff s → ∀ b ∈ s, isAscii b = false := by
    constructor
    · rintro h s hsuffix ⟨c, tail, rfl, hlt⟩ b hb
      rcases List.mem_cons.mp hb with rfl | hb
      · apply not_ascii_of_len
        rw [List.length_cons] at hlt
        omega
      · exact h c tail hsuffix hlt b hb
    · intro h c tail hsuffix hlt b hb
      exact h _ hsuffix ⟨c, tail, rfl, hlt⟩ b (List.mem_cons_of_mem c hb)
  rw [hcut, ← ascii_repaired]
  constructor
  · intro h
    obtain ⟨-, -, hascii, -, -⟩ := h [(text, 0)] (by simp)
    rw [streamed_eq] at hascii
    simpa using hascii
  · rintro hascii calls rfl
    simp only [streamed_eq]
    refine ⟨?_, complete_repaired _, hascii, repaired_of_complete, trivial⟩
    intro calls' hcalls'
    rw [hcalls']

/-- The bytes `E4 61`: the flush replaces them both, and the letter is lost. -/
theorem streamingRepair_letter :
    streamed [([0xE4, 0x61], 0)] = (replacementChar, []) ∧
      ¬ List.Sublist (([0xE4, 0x61] : Bytes).filter isAscii) replacementChar := by
  decide +kernel

end Qw3.Stream
