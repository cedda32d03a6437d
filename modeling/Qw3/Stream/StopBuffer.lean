import Qw3.Lib.Search
import Qw3.Lib.Chunks
import Qw3.Stream.Bytes

/-!
# Stop strings in a stream

* `CompletionStopBuffer`, `push`, `finish` — the source's.
* `Listening` — no stop can begin in what was returned, whatever comes; `Kept`
  is what every push keeps.
* `noStopLeaks` — **no stop text leaks**.
* `tokenBoundaries` — exactly when the cuts of a text do not matter: some
  stop's occurrence begins leftmost and ends first.
-/

namespace Qw3.Stream

open Search Chunks

/-- `std::min` of two positions, with `none` for `npos`. -/
def minPos : Option ℕ → Option ℕ → Option ℕ
  | none, j => j
  | some i, none => some i
  | some i, some j => some (min i j)

/-- `CompletionStopBuffer`. -/
structure CompletionStopBuffer where
  stops : List Bytes
  pending : Bytes := []
  stopped : Bool := false

namespace CompletionStopBuffer

/-- The first position at which some stop stands: `found`. -/
def found (stops : List Bytes) (pending : Bytes) : Option ℕ :=
  stops.foldl (fun found stop => if stop = [] then found else minPos found (find stop pending)) none

/-- How much of the end may still become a stop: `hold`. -/
def hold (stops : List Bytes) (pending : Bytes) : ℕ :=
  stops.foldl (fun hold stop => overlap stop pending hold (min pending.length stop.length)) 0

/-- `push`. -/
def push (b : CompletionStopBuffer) (piece : Bytes) : Bytes × CompletionStopBuffer :=
  if b.stopped then ([], b)
  else
    let pending := b.pending ++ piece
    match found b.stops pending with
    | some i => (pending.take i, { b with pending := [], stopped := true })
    | none =>
        let emitted := pending.length - hold b.stops pending
        (pending.take emitted, { b with pending := pending.drop emitted })

/-- `finish`. -/
def finish (b : CompletionStopBuffer) : Bytes × CompletionStopBuffer :=
  (b.pending, { b with pending := [] })

end CompletionStopBuffer

/-! ## Where stops stand -/

/-- A stop stands at a position. -/
def StopAt (stops : List Bytes) (text : Bytes) (i : ℕ) : Prop :=
  ∃ stop ∈ stops, stop ≠ [] ∧ OccursAt stop text i

/-- The leftmost position at which a stop stands. -/
def FirstStop (stops : List Bytes) (text : Bytes) (i : ℕ) : Prop :=
  StopAt stops text i ∧ ∀ j < i, ¬ StopAt stops text j

variable {stops : List Bytes} {text more a : Bytes} {i j : ℕ}

theorem StopAt.append (h : StopAt stops text i) (more : Bytes) : StopAt stops (text ++ more) i := by
  obtain ⟨stop, hmem, hne, hat⟩ := h
  exact ⟨stop, hmem, hne, hat.append more⟩

theorem StopAt.lt (h : StopAt stops text i) : i < text.length := by
  obtain ⟨stop, -, hne, hat⟩ := h
  have hle := hat.le hne
  have hpos := List.length_pos_iff.mpr hne
  omega

theorem stopAt_append_left : StopAt stops (a ++ text) (a.length + i) ↔ StopAt stops text i := by
  unfold StopAt
  simp only [occursAt_append_left]

theorem FirstStop.unique (h : FirstStop stops text i) (h' : FirstStop stops text j) : i = j := by
  rcases Nat.lt_trichotomy i j with hlt | rfl | hlt
  · exact absurd h.1 (h'.2 i hlt)
  · rfl
  · exact absurd h'.1 (h.2 j hlt)

namespace CompletionStopBuffer

/-! ## The two loops over the stops -/

/-- Of the candidates so far and the next position, the smaller one. -/
theorem minPos_eq_some_iff {p q : Option ℕ} :
    minPos p q = some i ↔ (p = some i ∨ q = some i) ∧
      (∀ j, p = some j → i ≤ j) ∧ ∀ j, q = some j → i ≤ j := by
  match p, q with
  | none, none => simp [minPos]
  | none, some k =>
      simp only [minPos, Option.some.injEq, reduceCtorEq, false_or, false_imp_iff, implies_true,
        true_and]
      constructor
      · rintro rfl
        exact ⟨rfl, fun j hj => hj.le⟩
      · exact And.left
  | some k, none =>
      simp only [minPos, Option.some.injEq, reduceCtorEq, or_false, false_imp_iff, implies_true,
        and_true]
      constructor
      · rintro rfl
        exact ⟨rfl, fun j hj => hj.le⟩
      · exact And.left
  | some k, some l =>
      simp only [minPos, Option.some.injEq, forall_eq']
      omega

theorem minPos_eq_none_iff {p q : Option ℕ} : minPos p q = none ↔ p = none ∧ q = none := by
  match p, q with
  | none, none => simp [minPos]
  | none, some k => simp [minPos]
  | some k, none => simp [minPos]
  | some k, some l => simp [minPos]

/-- The candidates of the search: what was found before, and where each stop
is first found. -/
def Candidate (start : Option ℕ) (stops : List Bytes) (text : Bytes) (i : ℕ) : Prop :=
  start = some i ∨ ∃ stop ∈ stops, stop ≠ [] ∧ find stop text = some i

theorem candidate_cons {start : Option ℕ} {stop : Bytes} :
    Candidate start (stop :: stops) text i ↔
      Candidate start stops text i ∨ stop ≠ [] ∧ find stop text = some i := by
  unfold Candidate
  simp only [List.mem_cons, exists_eq_or_imp]
  rw [or_assoc, or_comm (a := stop ≠ [] ∧ find stop text = some i)]

/-- The loop of `found` from any start: the least candidate. -/
theorem foldl_spec (start : Option ℕ) (stops : List Bytes) (text : Bytes) :
    let r := stops.foldl
      (fun found stop => if stop = [] then found else minPos found (find stop text)) start
    (∀ i, r = some i → Candidate start stops text i ∧ ∀ j, Candidate start stops text j → i ≤ j) ∧
      (r = none → ∀ i, ¬ Candidate start stops text i) := by
  induction stops generalizing start with
  | nil =>
      simp only [List.foldl_nil, Candidate, List.not_mem_nil, false_and, exists_false, or_false]
      refine ⟨?_, ?_⟩
      · rintro i rfl
        exact ⟨rfl, fun j hj => (Option.some.inj hj).le⟩
      · rintro rfl i hi
        exact absurd hi (by simp)
  | cons stop stops ih =>
      simp only [List.foldl_cons]
      by_cases hstop : stop = []
      · rw [if_pos hstop]
        have hcand : ∀ j, Candidate start (stop :: stops) text j ↔ Candidate start stops text j := by
          intro j
          rw [candidate_cons]
          simp [hstop]
        simp only [hcand]
        exact ih start
      · rw [if_neg hstop]
        obtain ⟨hsome, hnone⟩ := ih (minPos start (find stop text))
        -- the loop's start was the lesser of two candidates
        have hlesser : ∀ j, Candidate start (stop :: stops) text j →
            ∃ k ≤ j, Candidate (minPos start (find stop text)) stops text k := by
          intro j hj
          rw [candidate_cons] at hj
          have hmin : ∀ p : Option ℕ, p = start ∨ p = find stop text → p = some j →
              ∃ k ≤ j, Candidate (minPos start (find stop text)) stops text k := by
            intro p hp hpj
            cases hm : minPos start (find stop text) with
            | none =>
                obtain ⟨h₁, h₂⟩ := minPos_eq_none_iff.mp hm
                rcases hp with rfl | rfl
                · rw [h₁] at hpj
                  cases hpj
                · rw [h₂] at hpj
                  cases hpj
            | some k =>
                obtain ⟨-, h₁, h₂⟩ := minPos_eq_some_iff.mp hm
                refine ⟨k, ?_, .inl rfl⟩
                rcases hp with rfl | rfl
                · exact h₁ j hpj
                · exact h₂ j hpj
          rcases hj with (hj | hj) | ⟨-, hj⟩
          · exact hmin start (.inl rfl) hj
          · exact ⟨j, le_rfl, .inr hj⟩
          · exact hmin _ (.inr rfl) hj
        refine ⟨?_, ?_⟩
        · intro i hi
          obtain ⟨hcand, hleast⟩ := hsome i hi
          refine ⟨?_, ?_⟩
          · rw [candidate_cons]
            rcases hcand with hcand | hcand
            · rcases (minPos_eq_some_iff.mp hcand).1 with h | h
              · exact .inl (.inl h)
              · exact .inr ⟨hstop, h⟩
            · exact .inl (.inr hcand)
          · intro j hj
            obtain ⟨k, hkj, hk⟩ := hlesser j hj
            exact (hleast k hk).trans hkj
        · intro hr i hi
          obtain ⟨k, -, hk⟩ := hlesser i hi
          exact hnone hr k hk

/-- What stands at a position stands there first or is found before. -/
theorem exists_candidate (h : StopAt stops text i) : ∃ j ≤ i, Candidate none stops text j := by
  obtain ⟨stop, hmem, hne, hat⟩ := h
  cases hf : find stop text with
  | none => exact absurd hat (find_eq_none_iff.mp hf i)
  | some j =>
      refine ⟨j, ?_, .inr ⟨stop, hmem, hne, hf⟩⟩
      by_contra hlt
      exact (find_eq_some_iff.mp hf).2.2 i (by omega) hat

theorem Candidate.stopAt (h : Candidate none stops text i) : StopAt stops text i := by
  rcases h with h | ⟨stop, hmem, hne, hf⟩
  · cases h
  · exact ⟨stop, hmem, hne, (find_eq_some_iff.mp hf).2.1⟩

theorem found_eq_some (h : found stops text = some i) : FirstStop stops text i := by
  obtain ⟨hcand, hleast⟩ := (foldl_spec none stops text).1 i h
  refine ⟨hcand.stopAt, ?_⟩
  intro j hj hat
  obtain ⟨k, hkj, hk⟩ := exists_candidate hat
  have := hleast k hk
  omega

theorem found_eq_none (h : found stops text = none) (i : ℕ) : ¬ StopAt stops text i := by
  intro hat
  obtain ⟨k, -, hk⟩ := exists_candidate hat
  exact (foldl_spec none stops text).2 h k hk

/-- The loop of `hold` from any start: no stop begins with a longer end. -/
theorem hold_spec (start : ℕ) (stops : List Bytes) (text : Bytes) (hstart : start ≤ text.length) :
    let r := stops.foldl
      (fun hold stop => overlap stop text hold (min text.length stop.length)) start
    start ≤ r ∧ r ≤ text.length ∧ ∀ stop ∈ stops, ∀ n, r < n → n ≤ text.length → n ≤ stop.length →
      text.drop (text.length - n) ≠ stop.take n := by
  induction stops generalizing start with
  | nil => exact ⟨le_rfl, hstart, fun stop hmem => absurd hmem (List.not_mem_nil)⟩
  | cons stop stops ih =>
      simp only [List.foldl_cons]
      have hle : overlap stop text start (min text.length stop.length) ≤ text.length :=
        overlap_le.trans (max_le hstart (min_le_left _ _))
      obtain ⟨hfrom, hto, hmax⟩ := ih _ hle
      refine ⟨le_overlap.trans hfrom, hto, ?_⟩
      intro stop' hmem n hlt hn hn'
      rcases List.mem_cons.mp hmem with rfl | hmem
      · exact overlap_max (hfrom.trans_lt hlt) (le_min hn hn')
      · exact hmax stop' hmem n hlt hn hn'

/-- A stop that stands in no text so far begins, whatever comes, in what is held back. -/
theorem le_of_stopAt (hnone : ∀ i, ¬ StopAt stops text i) (h : StopAt stops (text ++ more) i) :
    text.length - hold stops text ≤ i := by
  obtain ⟨stop, hmem, hne, hat⟩ := h
  by_contra hlt
  have hi : i < text.length := by omega
  have hrun : text.length < i + stop.length := by
    by_contra hle
    exact hnone i ⟨stop, hmem, hne, hat.of_append (by omega)⟩
  have hpre := hat.straddle hi.le hrun.le
  have hlen : (text.drop i).length = text.length - i := List.length_drop
  refine (hold_spec 0 stops text (Nat.zero_le _)).2.2 stop hmem (text.length - i) ?_ (by omega)
    (by omega) ?_
  · change hold stops text < _
    omega
  · rw [show text.length - (text.length - i) = i by omega, ← hlen]
    exact List.prefix_iff_eq_take.mp hpre

/-! ## What a push keeps -/

/-- A buffer that has not stopped: no stop stands in the text, and none can
begin in what was returned, whatever comes. -/
structure Listening (stops : List Bytes) (text out pending : Bytes) : Prop where
  text_eq : out ++ pending = text
  clear : ∀ more, ∀ i < out.length, ¬ StopAt stops (text ++ more) i
  none : ∀ i, ¬ StopAt stops text i

/-- The piece that completed a stop, and what was returned with it. -/
def Completed (stops : List Bytes) (pieces : List Bytes) (out : Bytes) : Prop :=
  ∃ before piece after, pieces = before ++ piece :: after ∧
    (∀ i, ¬ StopAt stops before.flatten i) ∧
    FirstStop stops (before.flatten ++ piece) out.length ∧ out <+: before.flatten ++ piece

/-- What holds between pushes. -/
structure Kept (stops : List Bytes) (pieces : List Bytes) (out : Bytes)
    (b : CompletionStopBuffer) : Prop where
  stops_eq : b.stops = stops
  listening : b.stopped = false → Listening stops pieces.flatten out b.pending
  completed : b.stopped = true → Completed stops pieces out

variable {out pending piece : Bytes} {pieces : List Bytes} {b : CompletionStopBuffer}

/-- What is pending starts where what was returned ends. -/
theorem Listening.stopAt_iff (h : Listening stops text out pending) (more : Bytes) (i : ℕ) :
    StopAt stops (text ++ more) (out.length + i) ↔ StopAt stops (pending ++ more) i := by
  rw [← h.text_eq, List.append_assoc, stopAt_append_left]

/-- A stop in the text and the next piece stands in what is pending. -/
theorem Listening.exists_add (h : Listening stops text out pending)
    (hat : StopAt stops (text ++ more) i) :
    ∃ j, i = out.length + j ∧ StopAt stops (pending ++ more) j := by
  have hle : out.length ≤ i := by
    by_contra hlt
    exact h.clear more i (by omega) hat
  refine ⟨i - out.length, by omega, ?_⟩
  rw [← h.stopAt_iff, show out.length + (i - out.length) = i by omega]
  exact hat

theorem Listening.found (h : Listening stops text out pending)
    (hf : found stops (pending ++ piece) = some i) :
    FirstStop stops (text ++ piece) (out ++ (pending ++ piece).take i).length ∧
      out ++ (pending ++ piece).take i <+: text ++ piece := by
  obtain ⟨hat, hfirst⟩ := found_eq_some hf
  have hlen : (out ++ (pending ++ piece).take i).length = out.length + i := by
    have := hat.lt
    rw [List.length_append, List.length_take]
    omega
  refine ⟨⟨?_, ?_⟩, ?_⟩
  · rw [hlen, h.stopAt_iff]
    exact hat
  · intro j hj hat'
    obtain ⟨k, rfl, hk⟩ := h.exists_add hat'
    exact hfirst k (by omega) hk
  · rw [← h.text_eq, List.append_assoc]
    exact (List.prefix_append_right_inj out).mpr (List.take_prefix i _)

theorem Listening.held (h : Listening stops text out pending)
    (hf : CompletionStopBuffer.found stops (pending ++ piece) = .none) (emitted : ℕ)
    (he : emitted = (pending ++ piece).length - hold stops (pending ++ piece)) :
    Listening stops (text ++ piece) (out ++ (pending ++ piece).take emitted)
      ((pending ++ piece).drop emitted) where
  text_eq := by rw [List.append_assoc, List.take_append_drop, ← h.text_eq, List.append_assoc]
  clear := by
    intro more j hj hat
    rw [List.append_assoc] at hat
    obtain ⟨k, rfl, hk⟩ := h.exists_add hat
    rw [← List.append_assoc] at hk
    have := le_of_stopAt (found_eq_none hf) hk
    rw [List.length_append, List.length_take] at hj
    omega
  none := by
    intro j hat
    obtain ⟨k, -, hk⟩ := h.exists_add hat
    exact found_eq_none hf k hk

theorem Completed.concat (h : Completed stops pieces out) (piece : Bytes) :
    Completed stops (pieces ++ [piece]) out := by
  obtain ⟨before, last, after, rfl, hnone, hfirst, hpre⟩ := h
  refine ⟨before, last, after ++ [piece], ?_, hnone, hfirst, hpre⟩
  rw [List.append_assoc, List.cons_append]

theorem push_stopped (hs : b.stopped = true) : b.push piece = ([], b) := if_pos hs

theorem push_found (hs : b.stopped = false) (hf : found b.stops (b.pending ++ piece) = some i) :
    b.push piece = ((b.pending ++ piece).take i, { b with pending := [], stopped := true }) := by
  unfold push
  simp only [hs, hf, Bool.false_eq_true, if_false]

theorem push_held (hs : b.stopped = false) (hf : found b.stops (b.pending ++ piece) = none) :
    let emitted := (b.pending ++ piece).length - hold b.stops (b.pending ++ piece)
    b.push piece = ((b.pending ++ piece).take emitted,
      { b with pending := (b.pending ++ piece).drop emitted }) := by
  unfold push
  simp only [hs, hf, Bool.false_eq_true, if_false]

/-- One push. -/
theorem Kept.push (h : Kept stops pieces out b) (piece : Bytes) :
    Kept stops (pieces ++ [piece]) (out ++ (b.push piece).1) (b.push piece).2 := by
  have hflat : (pieces ++ [piece]).flatten = pieces.flatten ++ piece := by simp
  obtain ⟨rfl, hlistening, hcompleted⟩ := h
  cases hs : b.stopped with
  | true =>
      rw [push_stopped hs, List.append_nil]
      exact ⟨rfl, fun hrun => absurd (hrun.symm.trans hs) Bool.false_ne_true,
        fun _ => (hcompleted hs).concat piece⟩
  | false =>
      have hl := hlistening hs
      cases hf : CompletionStopBuffer.found b.stops (b.pending ++ piece) with
      | none =>
          rw [push_held hs hf]
          refine ⟨rfl, fun _ => ?_, fun hrun => absurd (hs.symm.trans hrun) Bool.false_ne_true⟩
          rw [hflat]
          exact hl.held hf _ rfl
      | some i =>
          rw [push_found hs hf]
          refine ⟨rfl, fun hrun => absurd hrun.symm Bool.false_ne_true, fun _ => ?_⟩
          obtain ⟨hfirst, hpre⟩ := hl.found hf
          exact ⟨pieces, piece, [], rfl, hl.none, hfirst, hpre⟩

/-- The buffer after the pieces, and what it returned. -/
abbrev pushes (stops : List Bytes) (pieces : List Bytes) : Bytes × CompletionStopBuffer :=
  pushAll CompletionStopBuffer.push ⟨stops, [], false⟩ pieces

theorem kept_pushes (stops : List Bytes) (pieces : List Bytes) :
    Kept stops pieces (pushes stops pieces).1 (pushes stops pieces).2 := by
  refine @pushAll_induction _ _ _ _ _ (Kept stops) ?_ (fun pieces out b piece h => h.push piece)
    pieces
  refine ⟨rfl, fun _ => ⟨rfl, ?_, ?_⟩, fun hrun => absurd hrun Bool.false_ne_true⟩
  · intro more i hi
    exact absurd hi (Nat.not_lt_zero i)
  · intro i hat
    exact absurd hat.lt (Nat.not_lt_zero i)

/-! ## What was returned -/

/-- The text up to the leftmost stop contains none. -/
theorem not_stopAt_of_first (h : FirstStop stops text i) (hpre : out <+: text)
    (hlen : out.length = i) (j : ℕ) : ¬ StopAt stops out j := by
  intro hat
  obtain ⟨rest, rfl⟩ := hpre
  exact h.2 j (hlen ▸ hat.lt) (hat.append rest)

theorem Completed.isPrefix (h : Completed stops pieces out) : out <+: pieces.flatten := by
  obtain ⟨before, piece, after, rfl, -, -, hpre⟩ := h
  rw [List.flatten_append, List.flatten_cons, ← List.append_assoc]
  exact hpre.trans (List.prefix_append _ _)

theorem Completed.stopAt (h : Completed stops pieces out) :
    StopAt stops pieces.flatten out.length := by
  obtain ⟨before, piece, after, rfl, -, hfirst, -⟩ := h
  rw [List.flatten_append, List.flatten_cons, ← List.append_assoc]
  exact hfirst.1.append after.flatten

theorem Completed.not_stopAt (h : Completed stops pieces out) (j : ℕ) : ¬ StopAt stops out j := by
  obtain ⟨before, piece, after, rfl, -, hfirst, hpre⟩ := h
  exact not_stopAt_of_first hfirst hpre rfl j

/-- **No stop text leaks.**  After any pushes, what was returned contains no
stop and begins the text; until the buffer stops, what it retains is the rest of
the text; and where it stopped, a stop stands in the text. -/
theorem noStopLeaks (stops : List Bytes) (pieces : List Bytes) :
    let r := pushes stops pieces
    (∀ stop ∈ stops, stop ≠ [] → ¬ stop <:+: r.1) ∧ r.1 <+: pieces.flatten ∧
      (r.2.stopped = false → r.1 ++ r.2.pending = pieces.flatten) ∧
      (r.2.stopped = true → ∃ stop ∈ stops, stop ≠ [] ∧ OccursAt stop pieces.flatten r.1.length) := by
  intro r
  have h : Kept stops pieces r.1 r.2 := kept_pushes stops pieces
  have hclean : (∀ j, ¬ StopAt stops r.1 j) ∧ r.1 <+: pieces.flatten := by
    cases hs : r.2.stopped with
    | false =>
        have hl := h.listening hs
        refine ⟨?_, r.2.pending, hl.text_eq⟩
        intro j hat
        exact hl.none j (hl.text_eq ▸ hat.append r.2.pending)
    | true => exact ⟨(h.completed hs).not_stopAt, (h.completed hs).isPrefix⟩
  refine ⟨?_, hclean.2, fun hs => (h.listening hs).text_eq, fun hs => (h.completed hs).stopAt⟩
  intro stop hmem hne hin
  obtain ⟨j, hat⟩ := isInfix_iff_occursAt.mp hin
  exact hclean.1 j ⟨stop, hmem, hne, hat⟩

/-! ## Cuts of one text -/

/-- All that a cut of a text returns, `finish` included when the buffer has not
stopped, and `stopped`. -/
def outcome (stops : List Bytes) (pieces : List Bytes) : Bytes × Bool :=
  let r := pushes stops pieces
  (if r.2.stopped then r.1 else r.1 ++ r.2.finish.1, r.2.stopped)

/-- A stop that begins leftmost and ends first of all that stand in the text. -/
def Decisive (stops : List Bytes) (text : Bytes) : Prop :=
  ∃ stop ∈ stops, stop ≠ [] ∧ ∃ i, OccursAt stop text i ∧
    ∀ other ∈ stops, other ≠ [] → ∀ j, OccursAt other text j →
      i ≤ j ∧ i + stop.length ≤ j + other.length

/-- Without a stop in the text, all of it is returned. -/
theorem outcome_of_none (hnone : ∀ i, ¬ StopAt stops pieces.flatten i) :
    outcome stops pieces = (pieces.flatten, false) := by
  have h := kept_pushes stops pieces
  cases hs : (pushes stops pieces).2.stopped with
  | true => exact absurd (h.completed hs).stopAt (hnone _)
  | false =>
      simp only [outcome, hs, Bool.false_eq_true, if_false]
      rw [← (h.listening hs).text_eq]
      rfl

/-- With a stop in the text, some piece completes one. -/
theorem outcome_of_stopAt (pieces : List Bytes) (hat : StopAt stops pieces.flatten i) :
    ∃ out, outcome stops pieces = (out, true) ∧ Completed stops pieces out := by
  have h := kept_pushes stops pieces
  cases hs : (pushes stops pieces).2.stopped with
  | true =>
      refine ⟨(pushes stops pieces).1, ?_, h.completed hs⟩
      simp only [outcome, hs, if_true]
  | false => exact absurd hat ((h.listening hs).none i)

/-- A decisive stop is the one that any cut cuts at. -/
theorem Completed.of_decisive {stop : Bytes} (h : Completed stops pieces out) (hmem : stop ∈ stops)
    (hne : stop ≠ []) (hat : OccursAt stop pieces.flatten i)
    (hfirst : ∀ other ∈ stops, other ≠ [] → ∀ j, OccursAt other pieces.flatten j →
      i ≤ j ∧ i + stop.length ≤ j + other.length) : out = pieces.flatten.take i := by
  obtain ⟨before, piece, after, rfl, -, hcut, hpre⟩ := h
  have hflat : (before ++ piece :: after).flatten = before.flatten ++ piece ++ after.flatten := by
    rw [List.flatten_append, List.flatten_cons, ← List.append_assoc]
  rw [hflat] at hat hfirst ⊢
  -- the stop that completed ends no earlier, so the decisive one was there as well
  obtain ⟨other, hother, hone, hoat⟩ := hcut.1
  have hend := (hfirst other hother hone _ (hoat.append _)).2
  have hin : FirstStop stops (before.flatten ++ piece) i := by
    refine ⟨⟨stop, hmem, hne, hat.of_append (hend.trans (hoat.le hone))⟩, ?_⟩
    rintro j hj ⟨third, hthird, htne, hthat⟩
    have := (hfirst third hthird htne j (hthat.append _)).1
    omega
  obtain rfl := hcut.unique hin
  rw [List.take_append_of_le_length hpre.length_le]
  exact List.prefix_iff_eq_take.mp hpre

/-- Byte by byte, the stop that completes ends before any other. -/
theorem Completed.first_end {bytes : Bytes} (h : Completed stops (bytes.map fun c => [c]) out) :
    ∃ stop ∈ stops, stop ≠ [] ∧ OccursAt stop bytes out.length ∧
      ∀ other ∈ stops, other ≠ [] → ∀ j, OccursAt other bytes j →
        out.length + stop.length ≤ j + other.length := by
  obtain ⟨before, piece, after, hsplit, hnone, hcut, -⟩ := h
  have hflat : bytes = before.flatten ++ piece ++ after.flatten := by
    have hjoin := congrArg List.flatten hsplit
    rw [← List.flatMap_def, List.flatMap_singleton' bytes] at hjoin
    rw [hjoin, List.flatten_append, List.flatten_cons, List.append_assoc]
  have hpiece : piece.length = 1 := by
    have hin : piece ∈ bytes.map fun c => [c] := hsplit ▸ by simp
    obtain ⟨c, -, rfl⟩ := List.mem_map.mp hin
    rfl
  obtain ⟨stop, hmem, hne, hat⟩ := hcut.1
  have hend := hat.le hne
  rw [List.length_append, hpiece] at hend
  refine ⟨stop, hmem, hne, hflat ▸ hat.append _, ?_⟩
  intro other hother hone j hoat
  by_contra hlt
  refine hnone j ⟨other, hother, hone, ?_⟩
  rw [hflat, List.append_assoc] at hoat
  exact hoat.of_append (by omega)

/-- **Stop handling is independent of token boundaries** exactly for the texts
in which no stop stands, or one that begins leftmost also ends first. -/
theorem tokenBoundaries (stops : List Bytes) (text : Bytes) :
    (∀ cut cut' : List Bytes, cut.flatten = text → cut'.flatten = text →
      outcome stops cut = outcome stops cut') ↔
    (∀ stop ∈ stops, stop ≠ [] → ¬ stop <:+: text) ∨ Decisive stops text := by
  have hin : (∀ stop ∈ stops, stop ≠ [] → ¬ stop <:+: text) ↔ ∀ i, ¬ StopAt stops text i := by
    simp only [isInfix_iff_occursAt, StopAt]
    constructor
    · rintro h i ⟨stop, hmem, hne, hat⟩
      exact h stop hmem hne ⟨i, hat⟩
    · rintro h stop hmem hne ⟨i, hat⟩
      exact h i ⟨stop, hmem, hne, hat⟩
  rw [hin]
  constructor
  · intro hagree
    by_cases hnone : ∀ i, ¬ StopAt stops text i
    · exact .inl hnone
    · obtain ⟨k, hk⟩ := not_forall_not.mp hnone
      right
      -- in one piece, the leftmost stop; byte by byte, the one that ends first
      have hwhole : [text].flatten = text := by simp
      have hbytes : (text.map fun c => [c]).flatten = text := by
        rw [← List.flatMap_def, List.flatMap_singleton']
      obtain ⟨out, hout, hone⟩ := outcome_of_stopAt [text] (by rw [hwhole]; exact hk)
      obtain ⟨out', hout', hfirst⟩ :=
        outcome_of_stopAt (text.map fun c => [c]) (by rw [hbytes]; exact hk)
      obtain rfl : out = out' := by
        have := hagree [text] (text.map fun c => [c]) hwhole hbytes
        rw [hout, hout'] at this
        exact congrArg Prod.fst this
      obtain ⟨stop, hmem, hne, hat, hends⟩ := hfirst.first_end
      refine ⟨stop, hmem, hne, out.length, hat, ?_⟩
      intro other hother hone' j hoat
      refine ⟨?_, hends other hother hone' j hoat⟩
      by_contra hlt
      obtain ⟨before, piece, after, hsplit, -, hcut, -⟩ := hone
      have htext : text = before.flatten ++ piece := by
        cases before with
        | nil => simpa using congrArg List.head? hsplit
        | cons x rest => simp at hsplit
      exact hcut.2 j (by omega) (htext ▸ ⟨other, hother, hone', hoat⟩)
  · rintro (hnone | ⟨stop, hmem, hne, i, hat, hfirst⟩) cut cut' rfl hcut'
    · rw [outcome_of_none hnone, outcome_of_none (by rw [hcut']; exact hnone), hcut']
    · obtain ⟨out, hout, hdone⟩ := outcome_of_stopAt cut ⟨stop, hmem, hne, hat⟩
      obtain ⟨out', hout', hdone'⟩ :=
        outcome_of_stopAt cut' (by rw [hcut']; exact ⟨stop, hmem, hne, hat⟩)
      rw [hout, hout', hdone.of_decisive hmem hne hat hfirst,
        hdone'.of_decisive hmem hne (by rw [hcut']; exact hat) (by rw [hcut']; exact hfirst), hcut']

/-- The stops `abc` and `b`: pushed whole, `abc` is cut at its first byte; with
`ab` pushed first, at its second. -/
theorem tokenBoundaries_abc :
    ["abc".toUTF8.toList].flatten = ["ab".toUTF8.toList, "c".toUTF8.toList].flatten ∧
    outcome ["abc".toUTF8.toList, "b".toUTF8.toList] ["abc".toUTF8.toList] = ([], true) ∧
    outcome ["abc".toUTF8.toList, "b".toUTF8.toList] ["ab".toUTF8.toList, "c".toUTF8.toList] =
      ("a".toUTF8.toList, true) := by
  decide +kernel

end CompletionStopBuffer

end Qw3.Stream
