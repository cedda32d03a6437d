import Mathlib.Data.Nat.Find
import Qw3.Stream.Bytes

/-!
# The tail of a streamed parameter value

* `startOfLastUtf8Codepoints`, `emitParameterPrefix`, `emitSafeParameterTail`,
  `processParameterData` — the source's, on the two fields they work on.
* `startOfLast_append` — the last two code points of a longer text are found
  from where those of its beginning start.
* `process_append`, `process_append_final` — a value that is processed in two
  pieces is emitted as it is in one.
-/

namespace Qw3.Stream

/-! ## The source's functions -/

/-- The inner loop of `start_of_last_utf8_codepoints`: back to a byte that
continues no code point. -/
def backToStart (text : Bytes) : ℕ → ℕ
  | 0 => 0
  | pos + 1 => if (text[pos + 1]?).any utf8Cont then backToStart text pos else pos + 1

/-- The outer loop of `start_of_last_utf8_codepoints`. -/
def startOfLast (text : Bytes) : ℕ → ℕ → ℕ
  | 0, pos => pos
  | count + 1, pos =>
      if pos = 0 then pos else startOfLast text count (backToStart text (pos - 1))

/-- `start_of_last_utf8_codepoints`. -/
def startOfLastUtf8Codepoints (text : Bytes) (count : ℕ) : ℕ := startOfLast text count text.length

/-- `LeadingTrim`. -/
inductive LeadingTrim where
  | optionalLf
  | optionalCr
  | done
  deriving DecidableEq

/-- `leading_trim_` and `parameter_tail_`. -/
structure ParameterTail where
  leadingTrim : LeadingTrim := .optionalLf
  bytes : Bytes := []
  deriving DecidableEq

namespace ParameterTail

/-- A text without a byte at its front. -/
def eraseFront (c : UInt8) (text : Bytes) : Bytes := if text.head? = some c then text.tail else text

/-- A text without a byte at its back. -/
def popBack (c : UInt8) (text : Bytes) : Bytes :=
  if text.getLast? = some c then text.dropLast else text

/-- The loop of `emit_parameter_prefix` at `OptionalCr`. -/
def trimCr (final : Bool) (bytes : Bytes) : ParameterTail :=
  if bytes = [] then ⟨if final then .done else .optionalCr, []⟩ else ⟨.done, eraseFront 0x0D bytes⟩

/-- The loop of `emit_parameter_prefix` at `OptionalLf`. -/
def trimLf (final : Bool) (bytes : Bytes) : ParameterTail :=
  if bytes = [] then ⟨if final then .done else .optionalLf, []⟩
  else trimCr final (eraseFront 0x0A bytes)

/-- `emit_parameter_prefix`. -/
def emitParameterPrefix (t : ParameterTail) (final : Bool) : ParameterTail :=
  match t.leadingTrim with
  | .optionalLf => trimLf final t.bytes
  | .optionalCr => trimCr final t.bytes
  | .done => t

/-- `emit_safe_parameter_tail`: the value of the event it pushes, empty for no
event, and what it leaves. -/
def emitSafeParameterTail (t : ParameterTail) (final : Bool) : Bytes × ParameterTail :=
  if t.leadingTrim ≠ .done then ([], t)
  else if final then (popBack 0x0D (popBack 0x0A t.bytes), { t with bytes := [] })
  else
    let keepFrom := startOfLastUtf8Codepoints t.bytes 2
    (t.bytes.take keepFrom, { t with bytes := t.bytes.drop keepFrom })

/-- `process_parameter_data`. -/
def processParameterData (t : ParameterTail) (text : Bytes) (final : Bool) :
    Bytes × ParameterTail :=
  (emitParameterPrefix { t with bytes := t.bytes ++ text } final).emitSafeParameterTail final

end ParameterTail

/-! ## The last two code points -/

variable {text more a b : Bytes} {i j n : ℕ}

/-- A byte that continues no code point stands at a position. -/
def StartsAt (text : Bytes) (i : ℕ) : Prop := ∃ c, text[i]? = some c ∧ utf8Cont c = false

theorem StartsAt.lt (h : StartsAt text i) : i < text.length := by
  obtain ⟨c, hc, -⟩ := h
  exact (List.getElem?_eq_some_iff.mp hc).1

theorem StartsAt.append (h : StartsAt text i) (more : Bytes) : StartsAt (text ++ more) i := by
  obtain ⟨c, hc, hcont⟩ := h
  refine ⟨c, ?_, hcont⟩
  rw [List.getElem?_append_left (List.getElem?_eq_some_iff.mp hc).1, hc]

theorem startsAt_drop : StartsAt (text.drop n) i ↔ StartsAt text (n + i) := by
  unfold StartsAt
  rw [List.getElem?_drop]

/-- Where a byte continues no code point, inside the text. -/
theorem startsAt_of_not_any (hi : i < text.length) (h : ¬ (text[i]?).any utf8Cont = true) :
    StartsAt text i := by
  refine ⟨text[i], List.getElem?_eq_getElem hi, ?_⟩
  rw [List.getElem?_eq_getElem hi] at h
  exact Bool.eq_false_iff.mpr h

theorem StartsAt.not_any (h : StartsAt text i) : ¬ (text[i]?).any utf8Cont = true := by
  obtain ⟨c, hc, hcont⟩ := h
  rw [hc]
  simp [hcont]

/-- The inner loop finds the greatest such position. -/
theorem backToStart_eq (text : Bytes) (pos : ℕ) :
    backToStart text pos = Nat.findGreatest (fun i => ¬ (text[i]?).any utf8Cont = true) pos := by
  induction pos with
  | zero => rfl
  | succ pos ih =>
      rw [backToStart, Nat.findGreatest_succ, ih]
      split_ifs <;> rfl

/-- Two code points from the end. -/
theorem startOfLast_two (text : Bytes) :
    startOfLastUtf8Codepoints text 2 =
      if text.length = 0 then 0
      else if backToStart text (text.length - 1) = 0 then 0
      else backToStart text (backToStart text (text.length - 1) - 1) := by
  unfold startOfLastUtf8Codepoints
  rw [startOfLast]
  split_ifs with hlen hback
  · exact hlen
  · rw [startOfLast, if_pos hback, hback]
  · rw [startOfLast, if_neg hback]
    rfl

/-- Two code points start at and after a position that is found. -/
theorem startsAt_startOfLast (h : 0 < startOfLastUtf8Codepoints text 2) :
    StartsAt text (startOfLastUtf8Codepoints text 2) ∧
      ∃ j, startOfLastUtf8Codepoints text 2 < j ∧ StartsAt text j := by
  rw [startOfLast_two] at h ⊢
  by_cases hlen : text.length = 0
  · simp [hlen] at h
  rw [if_neg hlen] at h ⊢
  by_cases hback : backToStart text (text.length - 1) = 0
  · simp [hback] at h
  rw [if_neg hback] at h ⊢
  have hj := Nat.findGreatest_of_ne_zero (backToStart_eq text (text.length - 1)).symm hback
  have hi := Nat.findGreatest_of_ne_zero (backToStart_eq text _).symm h.ne'
  have hjle : backToStart text (text.length - 1) ≤ text.length - 1 :=
    backToStart_eq text _ ▸ Nat.findGreatest_le _
  have hile : backToStart text (backToStart text (text.length - 1) - 1) ≤
      backToStart text (text.length - 1) - 1 := by
    rw [backToStart_eq text (_ - 1)]
    exact Nat.findGreatest_le _
  exact ⟨startsAt_of_not_any (by omega) hi, _, by omega, startsAt_of_not_any (by omega) hj⟩

/-- No later position has another code point after it. -/
theorem le_startOfLast (hi : StartsAt text i) (hij : i < j) (hj : StartsAt text j) :
    i ≤ startOfLastUtf8Codepoints text 2 := by
  have hlt := hj.lt
  have hjback : j ≤ backToStart text (text.length - 1) := by
    rw [backToStart_eq]
    exact Nat.le_findGreatest (by omega) hj.not_any
  rw [startOfLast_two, if_neg (by omega), if_neg (by omega), backToStart_eq text (_ - 1)]
  exact Nat.le_findGreatest (by omega) hi.not_any

/-- The last two code points of a longer text, from where those of its beginning
start. -/
theorem startOfLast_append (text more : Bytes) :
    startOfLastUtf8Codepoints (text ++ more) 2 = startOfLastUtf8Codepoints text 2 +
      startOfLastUtf8Codepoints (text.drop (startOfLastUtf8Codepoints text 2) ++ more) 2 := by
  generalize hn : startOfLastUtf8Codepoints text 2 = n
  rcases Nat.eq_zero_or_pos n with rfl | hpos
  · rw [List.drop_zero, Nat.zero_add]
  obtain ⟨hi, j, hij, hj⟩ := startsAt_startOfLast (hn ▸ hpos)
  rw [hn] at hi hij
  have hfrom : n ≤ startOfLastUtf8Codepoints (text ++ more) 2 :=
    le_startOfLast (hi.append more) hij (hj.append more)
  rw [← List.drop_append_of_le_length hi.lt.le]
  generalize text ++ more = whole at hfrom ⊢
  apply le_antisymm
  · rcases hfrom.eq_or_lt with heq | hlt
    · omega
    · have hwhole : 0 < startOfLastUtf8Codepoints whole 2 := by omega
      obtain ⟨hk, l, hkl, hl⟩ := startsAt_startOfLast hwhole
      have : startOfLastUtf8Codepoints whole 2 - n ≤ startOfLastUtf8Codepoints (whole.drop n) 2 := by
        refine le_startOfLast (j := l - n) ?_ (by omega) ?_
        · rw [startsAt_drop, Nat.add_sub_cancel' hfrom]
          exact hk
        · rw [startsAt_drop, Nat.add_sub_cancel' (by omega)]
          exact hl
      omega
  · rcases Nat.eq_zero_or_pos (startOfLastUtf8Codepoints (whole.drop n) 2) with hzero | hlt
    · omega
    · obtain ⟨hk, l, hkl, hl⟩ := startsAt_startOfLast hlt
      rw [startsAt_drop] at hk hl
      exact le_startOfLast hk (by omega) hl

/-! ## A value in pieces -/

namespace ParameterTail

theorem eraseFront_append (c : UInt8) (ha : a ≠ []) (b : Bytes) :
    eraseFront c (a ++ b) = eraseFront c a ++ b := by
  obtain ⟨x, a, rfl⟩ := List.exists_cons_of_ne_nil ha
  unfold eraseFront
  rw [List.cons_append, List.head?_cons, List.head?_cons]
  split_ifs
  · rfl
  · rfl

theorem popBack_append (c : UInt8) (a : Bytes) (hb : b ≠ []) :
    popBack c (a ++ b) = a ++ popBack c b := by
  unfold popBack
  rw [List.getLast?_append_of_ne_nil a hb]
  split_ifs
  · exact List.dropLast_append_of_ne_nil hb
  · rfl

/-- The trimming at the end of a value reaches two bytes back. -/
theorem popBack_popBack_append (c d : UInt8) (a : Bytes) (hb : 2 ≤ b.length) :
    popBack d (popBack c (a ++ b)) = a ++ popBack d (popBack c b) := by
  have hne : b ≠ [] := by
    rintro rfl
    exact absurd hb (by decide)
  have hpop : popBack c b ≠ [] := by
    unfold popBack
    split_ifs
    · apply List.ne_nil_of_length_pos
      rw [List.length_dropLast]
      omega
    · exact hne
  rw [popBack_append c a hne, popBack_append d a hpop]

theorem trimCr_append (final : Bool) (a b : Bytes) :
    trimCr final (a ++ b) = emitParameterPrefix
      { trimCr false a with bytes := (trimCr false a).bytes ++ b } final := by
  by_cases ha : a = []
  · rw [ha]
    rfl
  · unfold trimCr
    rw [if_neg (List.append_ne_nil_of_left_ne_nil ha b), if_neg ha, eraseFront_append _ ha]
    rfl

/-- The front of a value is trimmed in two pieces as it is in one. -/
theorem emitParameterPrefix_append (t : ParameterTail) (more : Bytes) (final : Bool) :
    emitParameterPrefix { t with bytes := t.bytes ++ more } final =
      emitParameterPrefix { emitParameterPrefix t false with
        bytes := (emitParameterPrefix t false).bytes ++ more } final := by
  obtain ⟨trim, bytes⟩ := t
  cases trim with
  | done => rfl
  | optionalCr => exact trimCr_append final bytes more
  | optionalLf =>
      by_cases hb : bytes = []
      · rw [hb]
        rfl
      · change trimLf final (bytes ++ more) = _
        have hfalse : emitParameterPrefix ⟨.optionalLf, bytes⟩ false =
            trimCr false (eraseFront 0x0A bytes) := if_neg hb
        rw [hfalse, ← trimCr_append, trimLf, if_neg (List.append_ne_nil_of_left_ne_nil hb more),
          eraseFront_append _ hb]

/-- What is kept back is the whole value or at least two bytes of it. -/
theorem two_le_drop (bytes : Bytes) (h : 0 < startOfLastUtf8Codepoints bytes 2) :
    2 ≤ (bytes.drop (startOfLastUtf8Codepoints bytes 2)).length := by
  obtain ⟨-, j, hlt, hj⟩ := startsAt_startOfLast h
  have := hj.lt
  rw [List.length_drop]
  omega

/-- The back of a value is emitted in two pieces as it is in one. -/
theorem emitSafeParameterTail_append (bytes more : Bytes) (final : Bool) :
    emitSafeParameterTail ⟨.done, bytes ++ more⟩ final =
      ((emitSafeParameterTail ⟨.done, bytes⟩ false).1 ++
        (emitSafeParameterTail ⟨.done, (emitSafeParameterTail ⟨.done, bytes⟩ false).2.bytes ++ more⟩
          final).1,
        (emitSafeParameterTail ⟨.done, (emitSafeParameterTail ⟨.done, bytes⟩ false).2.bytes ++ more⟩
          final).2) := by
  have hkeep : startOfLastUtf8Codepoints bytes 2 ≤ bytes.length := by
    rcases Nat.eq_zero_or_pos (startOfLastUtf8Codepoints bytes 2) with hzero | hpos
    · omega
    · exact (startsAt_startOfLast hpos).1.lt.le
  simp only [emitSafeParameterTail, ne_eq, not_true_eq_false, if_false, Bool.false_eq_true]
  cases final with
  | true =>
      simp only [if_true]
      rcases Nat.eq_zero_or_pos (startOfLastUtf8Codepoints bytes 2) with hzero | hpos
      · rw [hzero]
        rfl
      · have hlen := two_le_drop bytes hpos
        rw [← popBack_popBack_append _ _ _ (by rw [List.length_append]; omega), ← List.append_assoc,
          List.take_append_drop]
  | false =>
      simp only [Bool.false_eq_true, if_false]
      rw [startOfLast_append bytes more, List.take_add, List.take_append_of_le_length hkeep,
        List.drop_append_of_le_length hkeep, ← List.drop_drop,
        List.drop_append_of_le_length hkeep]

/-- **A value in two pieces is emitted as it is in one.** -/
theorem processParameterData_append (t : ParameterTail) (a b : Bytes) (final : Bool) :
    t.processParameterData (a ++ b) final =
      ((t.processParameterData a false).1 ++
        ((t.processParameterData a false).2.processParameterData b final).1,
        ((t.processParameterData a false).2.processParameterData b final).2) := by
  unfold processParameterData
  have hfront := emitParameterPrefix_append { t with bytes := t.bytes ++ a } b final
  rw [List.append_assoc] at hfront
  rw [hfront]
  generalize emitParameterPrefix { t with bytes := t.bytes ++ a } false = u
  obtain ⟨trim, bytes⟩ := u
  cases trim with
  | done => exact emitSafeParameterTail_append bytes b final
  | optionalLf => rfl
  | optionalCr => rfl

end ParameterTail

end Qw3.Stream
