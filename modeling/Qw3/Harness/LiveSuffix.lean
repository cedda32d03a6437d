import Qw3.Harness.Plan

/-!
# The unfinished round

The live suffix of a plan begins with the unfinished tool round, or with the current query
when there is none.

* `TrailingRun` — the messages of a kind at the end of the list, behind the query.
* `RoundBegins` — where the unfinished round begins.
* `liveSuffix_spec` — the plan's live suffix is the round.
-/

namespace Qw3.Harness

open Qw3.Stream

/-! ## The unfinished round -/

section Definitions

variable (kind : HarnessKind) (prompt : Bytes) (messages : List HarnessRenderedMessageSpan) (query : ℕ)

/-- The longest run of messages that pass a test, at the end of the list and behind the
query, begins at `r`. -/
structure TrailingRun (p : HarnessRenderedMessageSpan → Bool) (r : ℕ) : Prop where
  behind : query < r
  le_length : r ≤ messages.length
  all : ∀ {i : ℕ} {span : HarnessRenderedMessageSpan}, r ≤ i → messages[i]? = some span → p span = true
  longest : r = query + 1 ∨ ∃ span, messages[r - 1]? = some span ∧ p span = false

/-- A tool's result behind the query, but for the harness's own messages the last. -/
def EndsInResult : Prop :=
  ∃ tail span, TrailingRun messages query (isMetaOnlyMessage kind prompt) tail ∧ query + 1 < tail ∧
    messages[tail - 1]? = some span ∧ isToolResultMessage prompt span = true

/-- The unfinished round begins at `m`: with the query unless a result is last, and then with
the run of results, or with the assistant's message before them. -/
inductive RoundBegins : ℕ → Prop
  | query : ¬ EndsInResult kind prompt messages query → RoundBegins query
  | call {r : ℕ} {span : HarnessRenderedMessageSpan} : EndsInResult kind prompt messages query →
      TrailingRun messages query (fun span => isToolResultMessage prompt span || isMetaOnlyMessage kind prompt span) r →
      query + 1 < r → messages[r - 1]? = some span → span.role = "assistant" → RoundBegins (r - 1)
  | results {r : ℕ} : EndsInResult kind prompt messages query →
      TrailingRun messages query (fun span => isToolResultMessage prompt span || isMetaOnlyMessage kind prompt span) r →
      (query + 1 < r → ∀ span, messages[r - 1]? = some span → span.role ≠ "assistant") → RoundBegins r

end Definitions

section Proofs

variable {kind : HarnessKind} {prompt : Bytes} {messages : List HarnessRenderedMessageSpan} {query : ℕ}

theorem retreat_spec {p : ℕ → Bool} {floor n : ℕ} (hle : floor ≤ n) :
    floor ≤ retreat p floor n ∧ retreat p floor n ≤ n ∧
      (∀ i, retreat p floor n ≤ i → i < n → p i = true) ∧
      (retreat p floor n = floor ∨ p (retreat p floor n - 1) = false) := by
  induction n with
  | zero => exact ⟨hle, le_rfl, fun i _ hi => absurd hi (Nat.not_lt_zero i), .inl (by simp [retreat]; omega)⟩
  | succ n ih =>
      rw [retreat]
      split_ifs with h
      · obtain ⟨hfloor, hn, hall, hstop⟩ := ih (by omega)
        refine ⟨hfloor, by omega, ?_, hstop⟩
        intro i hi hlt
        rcases Nat.lt_succ_iff_lt_or_eq.mp hlt with hlt | rfl
        · exact hall i hi hlt
        · exact h.2
      · refine ⟨hle, le_rfl, fun i hi hlt => by omega, ?_⟩
        rcases hle.eq_or_lt with heq | hlt
        · exact .inl heq.symm
        · right
          rw [Nat.add_sub_cancel]
          exact Bool.not_eq_true _ ▸ fun hp => h ⟨hlt, hp⟩

theorem messageAt_eq (p : HarnessRenderedMessageSpan → Bool) {i : ℕ} {span : HarnessRenderedMessageSpan}
    (h : messages[i]? = some span) : messageAt messages p i = p span := by
  rw [messageAt, h]
  rfl

theorem messageAt_or (p q : HarnessRenderedMessageSpan → Bool) :
    (fun i => messageAt messages p i || messageAt messages q i) =
      messageAt messages fun span => p span || q span := by
  funext i
  unfold messageAt
  cases messages[i]? with
  | none => rfl
  | some span => rfl

/-- The loop backwards from the end finds the run. -/
theorem trailingRun_retreat {p : HarnessRenderedMessageSpan → Bool} (hquery : query < messages.length) :
    TrailingRun messages query p (retreat (messageAt messages p) (query + 1) messages.length) := by
  obtain ⟨hfloor, hle, hall, hstop⟩ := retreat_spec (p := messageAt messages p) (show query + 1 ≤ _ from hquery)
  refine ⟨hfloor, hle, ?_, ?_⟩
  · intro i span hi hspan
    obtain ⟨hlt, -⟩ := List.getElem?_eq_some_iff.mp hspan
    rw [← messageAt_eq p hspan]
    exact hall i hi hlt
  · refine hstop.imp_right fun hnot => ?_
    have hlt : retreat (messageAt messages p) (query + 1) messages.length - 1 < messages.length := by omega
    have hspan := List.getElem?_eq_getElem hlt
    exact ⟨_, hspan, by rwa [← messageAt_eq p hspan]⟩

theorem TrailingRun.le {p : HarnessRenderedMessageSpan → Bool} {r s : ℕ} (hr : TrailingRun messages query p r)
    (hs : TrailingRun messages query p s) : r ≤ s := by
  rcases hr.longest with rfl | ⟨span, hspan, hnot⟩
  · exact hs.behind
  · by_contra hlt
    have hp := hs.all (by omega) hspan
    rw [hnot] at hp
    cases hp

theorem TrailingRun.unique {p : HarnessRenderedMessageSpan → Bool} {r s : ℕ}
    (hr : TrailingRun messages query p r) (hs : TrailingRun messages query p s) : r = s :=
  le_antisymm (hr.le hs) (hs.le hr)

/-- Messages that pass a weaker test lengthen the run. -/
theorem trailingRun_extend {p q : HarnessRenderedMessageSpan → Bool} {tail : ℕ} {span : HarnessRenderedMessageSpan}
    (htail : TrailingRun messages query q tail) (hlt : query + 1 < tail) (hspan : messages[tail - 1]? = some span)
    (hp : p span = true) (hqp : ∀ span, q span = true → p span = true) :
    TrailingRun messages query p (retreat (messageAt messages p) (query + 1) (tail - 1)) := by
  obtain ⟨hfloor, hle, hall, hstop⟩ := retreat_spec (p := messageAt messages p) (show query + 1 ≤ tail - 1 by omega)
  have hlen := htail.le_length
  refine ⟨hfloor, by omega, ?_, ?_⟩
  · intro i span' hi hspan'
    rcases Nat.lt_trichotomy i (tail - 1) with hlt' | rfl | hgt
    · rw [← messageAt_eq p hspan']
      exact hall i hi hlt'
    · rw [hspan] at hspan'
      rwa [← Option.some.inj hspan']
    · exact hqp span' (htail.all (by omega) hspan')
  · refine hstop.imp_right fun hnot => ?_
    have hlt : retreat (messageAt messages p) (query + 1) (tail - 1) - 1 < messages.length := by omega
    have hspan := List.getElem?_eq_getElem hlt
    exact ⟨_, hspan, by rwa [← messageAt_eq p hspan]⟩

/-- **The unfinished round.** The scans from the end find where it begins. -/
theorem roundBegins_suffixOrder (hvalid : ∀ span ∈ messages, validSegmentBounds prompt span = true)
    (hquery : query < messages.length) :
    RoundBegins kind prompt messages query (suffixOrder kind prompt messages query) ∧
      query ≤ suffixOrder kind prompt messages query ∧
      suffixOrder kind prompt messages query < messages.length := by
  have htail := trailingRun_retreat (p := isMetaOnlyMessage kind prompt) hquery
  unfold suffixOrder
  dsimp only
  generalize retreat (messageAt messages (isMetaOnlyMessage kind prompt)) (query + 1) messages.length = tail at *
  have hlen := htail.le_length
  rw [messageAt_or]
  by_cases hresult : query + 1 < tail ∧ messageAt messages (isToolResultMessage prompt) (tail - 1) = true
  · obtain ⟨hlt, hresult⟩ := hresult
    obtain ⟨span, hspan⟩ : ∃ span, messages[tail - 1]? = some span :=
      ⟨_, List.getElem?_eq_getElem (by omega)⟩
    rw [messageAt_eq _ hspan] at hresult
    have hends : EndsInResult kind prompt messages query := ⟨tail, span, htail, hlt, hspan, hresult⟩
    have hrun := trailingRun_extend (p := fun span => isToolResultMessage prompt span || isMetaOnlyMessage kind prompt span)
      htail hlt hspan (by rw [hresult, Bool.true_or]) fun span h => by rw [h, Bool.or_true]
    have hle := (retreat_spec (p := messageAt messages fun span => isToolResultMessage prompt span ||
      isMetaOnlyMessage kind prompt span) (show query + 1 ≤ tail - 1 by omega)).2.1
    rw [if_pos ⟨hlt, by rw [messageAt_eq _ hspan, hresult]⟩]
    generalize retreat (messageAt messages fun span => isToolResultMessage prompt span ||
      isMetaOnlyMessage kind prompt span) (query + 1) (tail - 1) = r at hrun hle ⊢
    have hbehind := hrun.behind
    split_ifs with hcall
    · -- the assistant's message is before the results
      obtain ⟨hr, hcall⟩ := hcall
      obtain ⟨call, hspan⟩ : ∃ span, messages[r - 1]? = some span :=
        ⟨_, List.getElem?_eq_getElem (by omega)⟩
      rw [messageAt_eq _ hspan, Bool.and_eq_true, decide_eq_true_eq] at hcall
      exact ⟨.call hends hrun hr hspan hcall.1, by omega, by omega⟩
    · refine ⟨.results hends hrun ?_, by omega, by omega⟩
      intro hr call hspan hrole
      refine hcall ⟨hr, ?_⟩
      rw [messageAt_eq _ hspan, Bool.and_eq_true, decide_eq_true_eq]
      exact ⟨hrole, hvalid call (List.mem_of_getElem? hspan)⟩
  · rw [if_neg hresult]
    refine ⟨.query ?_, le_rfl, hquery⟩
    rintro ⟨tail', span, htail', hlt, hspan, hr⟩
    obtain rfl := htail.unique htail'
    exact hresult ⟨hlt, by rwa [messageAt_eq _ hspan]⟩

/-- A message of the user's own is no tool's result and not the harness's. -/
theorem not_result_of_isQuery {span : HarnessRenderedMessageSpan} (h : isQuery kind prompt span = true) :
    isToolResultMessage prompt span = false ∧ isMetaOnlyMessage kind prompt span = false := by
  unfold isQuery at h
  split_ifs at h with hnot
  rw [Bool.not_eq_true', Bool.or_eq_false_iff] at h
  have hrole : span.role = "user" := by
    by_contra hrole
    exact hnot (.inl hrole)
  constructor
  · unfold isToolResultMessage
    by_cases hseg : validSegmentBounds prompt span = true
    · rw [if_pos hseg, if_neg (by rw [hrole]; decide), if_neg hnot, h.1]
    · rw [if_neg hseg]
  · unfold isMetaOnlyMessage
    rw [if_neg hnot, h.2]

/-- The first and the last of the user's own messages. -/
theorem queryOrder_spec (hquery : ∃ span ∈ messages, isQuery kind prompt span = true) :
    ∃ root query r q, rootQueryOrder kind prompt messages = some root ∧ queryOrder kind prompt messages = some query ∧
      messages[root]? = some r ∧ messages[query]? = some q ∧ isQuery kind prompt r = true ∧
      isQuery kind prompt q = true ∧
      ∀ i span, messages[i]? = some span → isQuery kind prompt span = true → root ≤ i ∧ i ≤ query := by
  obtain ⟨span, hmem, hspan⟩ := hquery
  have hroot : ∃ root, rootQueryOrder kind prompt messages = some root := by
    apply Option.isSome_iff_exists.mp
    rw [rootQueryOrder, List.findIdx?_isSome]
    exact List.any_eq_true.mpr ⟨span, hmem, hspan⟩
  have hrev : ∃ rev, messages.reverse.findIdx? (isQuery kind prompt) = some rev := by
    apply Option.isSome_iff_exists.mp
    rw [List.findIdx?_isSome]
    exact List.any_eq_true.mpr ⟨span, List.mem_reverse.mpr hmem, hspan⟩
  obtain ⟨root, hroot⟩ := hroot
  obtain ⟨rev, hrev⟩ := hrev
  obtain ⟨hrlt, hr, hfirst⟩ := List.findIdx?_eq_some_iff_getElem.mp hroot
  obtain ⟨hqlt, hq, hlast⟩ := List.findIdx?_eq_some_iff_getElem.mp hrev
  rw [List.length_reverse] at hqlt
  rw [List.getElem_reverse] at hq
  have hquery : queryOrder kind prompt messages = some (messages.length - 1 - rev) := by
    rw [queryOrder, hrev]
    rfl
  refine ⟨root, _, _, _, hroot, hquery, List.getElem?_eq_getElem hrlt, List.getElem?_eq_getElem _, hr, hq, ?_⟩
  intro i span hi hspan
  obtain ⟨hlt, rfl⟩ := List.getElem?_eq_some_iff.mp hi
  constructor
  · by_contra hle
    exact hfirst i (by omega) hspan
  · -- behind the last message of the user's own there is none
    by_contra hle
    refine hlast (messages.length - 1 - i) (by omega) ?_
    rw [List.getElem_reverse]
    simpa only [show messages.length - 1 - (messages.length - 1 - i) = i by omega] using hspan

/-- **The live suffix.** In a prompt with a message of the user's own the live suffix runs from
the unfinished round to the prompt's end, the history ends where it begins, and it begins
no earlier than the current query.  The current query is the last message of the user's own and the root task the
first; results and the harness's own messages are neither. -/
theorem liveSuffix_spec (hkind : kind ≠ .none) (hvalid : ∀ span ∈ messages, validSegmentBounds prompt span = true)
    (hquery : ∃ span ∈ messages, isQuery kind prompt span = true) (controlPrefixEnd : ℕ) :
    ∃ root query m r q live, messages[root]? = some r ∧ messages[query]? = some q ∧ messages[m]? = some live ∧
      isQuery kind prompt r = true ∧ isQuery kind prompt q = true ∧
      (∀ i span, messages[i]? = some span → isQuery kind prompt span = true → root ≤ i ∧ i ≤ query) ∧
      (∀ span, span = r ∨ span = q →
        isToolResultMessage prompt span = false ∧ isMetaOnlyMessage kind prompt span = false) ∧
      query ≤ m ∧ RoundBegins kind prompt messages query m ∧
      let plan := deriveHarnessSemanticPlan kind prompt messages controlPrefixEnd
      plan.rootTaskMessageIndex = some r.messageIndex ∧ plan.currentQueryMessageIndex = some q.messageIndex ∧
        plan.liveSuffixMessageBeginIndex = some live.messageIndex ∧
        plan.liveSuffixSpan = some ⟨live.segmentBegin, prompt.length, .liveToolTrajectory⟩ ∧
        plan.historyEnd = live.segmentBegin := by
  obtain ⟨root, query, r, q, hroot, hqueryOrder, hr, hq, hrq, hqq, hall⟩ := queryOrder_spec hquery
  have hsuffix : RoundBegins kind prompt messages query (suffixOrder kind prompt messages query) ∧
      query ≤ suffixOrder kind prompt messages query ∧
      suffixOrder kind prompt messages query < messages.length :=
    roundBegins_suffixOrder hvalid (List.getElem?_eq_some_iff.mp hq).1
  obtain ⟨hround, hle, hlt⟩ := hsuffix
  have hlive := List.getElem?_eq_getElem hlt
  have hliveSuffix : liveSuffix kind prompt messages = some messages[suffixOrder kind prompt messages query] := by
    rw [liveSuffix, hqueryOrder, Option.map_some, Option.bind_some, hlive, Option.filter_some,
      if_pos (hvalid _ (List.getElem_mem hlt))]
  refine ⟨root, query, _, r, q, _, hr, hq, hlive, hrq, hqq, hall, ?_, hle, hround, ?_⟩
  · rintro span (rfl | rfl)
    · exact not_result_of_isQuery hrq
    · exact not_result_of_isQuery hqq
  · dsimp only
    rw [deriveHarnessSemanticPlan, if_neg hkind, hliveSuffix, hroot, hqueryOrder]
    simp only [Option.bind_some, hr, hq, Option.map_some, Option.getD_some, and_self]

end Proofs

/-- A call and its result behind the user's message: the round begins with the call. -/
theorem liveSuffix_call :
    let messages : List HarnessRenderedMessageSpan :=
      [⟨0, "user", 0, 2, 0, 1⟩, ⟨1, "assistant", 2, 4, 2, 3⟩, ⟨2, "tool", 4, 6, 4, 5⟩]
    let prompt : Bytes := [0x61, 0x0A, 0x62, 0x0A, 0x63, 0x0A]
    ∃ root query m r q live, messages[root]? = some r ∧ messages[query]? = some q ∧ messages[m]? = some live ∧
      isQuery .openCode prompt r = true ∧ isQuery .openCode prompt q = true ∧
      (∀ i span, messages[i]? = some span → isQuery .openCode prompt span = true → root ≤ i ∧ i ≤ query) ∧
      (∀ span, span = r ∨ span = q →
        isToolResultMessage prompt span = false ∧ isMetaOnlyMessage .openCode prompt span = false) ∧
      query ≤ m ∧ RoundBegins .openCode prompt messages query m ∧
      let plan := deriveHarnessSemanticPlan .openCode prompt messages 0
      plan.rootTaskMessageIndex = some r.messageIndex ∧ plan.currentQueryMessageIndex = some q.messageIndex ∧
        plan.liveSuffixMessageBeginIndex = some live.messageIndex ∧
        plan.liveSuffixSpan = some ⟨live.segmentBegin, prompt.length, .liveToolTrajectory⟩ ∧
        plan.historyEnd = live.segmentBegin := by
  refine liveSuffix_spec (by decide) (by decide) ⟨_, List.mem_cons_self, ?_⟩ 0
  have hframes : reminderFrames [0x61] = [] := reminderFramesFrom_none (by decide +kernel)
  have hmeta : harnessMessageIsMetaOnly .openCode [0x61] = false := by
    rw [harnessMessageIsMetaOnly, hframes]
    rfl
  have hresponse : looksLikeToolResponse [0x61] = false := by decide +kernel
  change (!(looksLikeToolResponse [0x61] || harnessMessageIsMetaOnly .openCode [0x61])) = true
  rw [hmeta, hresponse]
  rfl

end Qw3.Harness
