import Qw3.Anthropic.Mapping
import Qw3.Native.Prefix
import Qw3.Vision.Prepared

/-!
# Preparing a native request

`prepare_native_messages_request` of `native_message_preparation.hpp`, which
converts the messages that a cached entry does not have.

* `prepareTurn`, `prepareNativeMessagesRequest` — a turn of its loop, and the loop.
* `Built` — the entries that successful calls leave in the cache.
* `Kept` — their raw messages are what their sources are converted to.
* `nativePreparation` — a call returns the conversion of the complete request.
-/

namespace Qw3.Native

open Json Anthropic

/-- `PreparedMessageCache::Entry`, with the raw message of each record. -/
structure Entry where
  messages : List Json
  native : Option NativeMessageSnapshot := none

/-- `NativePreparedRequest`. -/
structure NativePreparedRequest where
  request : Json
  openai : Json
  previous : Option Entry := none
  snapshot : Option NativeMessageSnapshot := none
  prefixCount : ℕ := 0
  wirePrefixMessages : ℕ := 0
  wirePrefixBytes : ℕ := 0
  systemFallback : Bool := false

/-- The items of `json["messages"]`. -/
def messagesOf (j : Json) : List Json :=
  match j.find? "messages" with
  | some (.array items) => items
  | _ => []

/-- `messages.erase(messages.begin(), messages.begin() + count)`. -/
def eraseFront (count : ℕ) : Json → Json
  | .object members =>
      match members.lookup "messages" with
      | some (.array items) =>
          .object (replaceMember "messages" (.array (items.drop count)) members)
      | _ => .object members
  | j => j

/-- The loop over the counts of the reused messages: how many records they are,
none where the entry has not that many. -/
def countReused (total : ℕ) : ℕ → List ℕ → Option ℕ
  | count, [] => some count
  | count, n :: counts =>
      if n ≤ total - count then countReused total (count + n) counts else none

/-- `prefix_count`, none where the reuse is not safe. -/
def safePrefix (entry : Entry) (old : NativeMessageSnapshot) (mapping : AnthropicMessageMapping)
    (converted : List Json) (reused : ℕ) : Option ℕ :=
  if mapping.systemCount = old.systemCount ∧ old.systemCount ≤ entry.messages.length ∧
      equalItems (converted.take mapping.systemCount) (entry.messages.take mapping.systemCount) then
    countReused entry.messages.length old.systemCount (old.convertedCounts.take reused)
  else none

/-- The snapshot with what the converter counted. -/
def recordCounts (counts : List ℕ) (mapping : AnthropicMessageMapping)
    (snapshot : NativeMessageSnapshot) : NativeMessageSnapshot :=
  { snapshot with
    systemCount := mapping.systemCount
    convertedCounts := counts ++ mapping.messageCounts }

section Prepare

variable (P : JsonParsers) (F : FloatText) (wire : Wire) (allowPrefix allowFast : Bool)

/-- The request of the wire, without the messages of the entry. -/
def parseRequest (previous : Option Entry) : Except Failure NativeRequestParse :=
  (if allowPrefix then parseNativeRequestPrefix P wire (previous.bind Entry.native) allowFast
    else (parseNativeRequestJson P wire allowFast).map fun request => { request }).mapError .threw

/-- A turn of the loop; `none` where it goes on without the entry. -/
def prepareTurn (previous : Option Entry) (fallback : Bool) :
    Except Failure (Option NativePreparedRequest) :=
  (parseRequest P wire allowPrefix allowFast previous).bind fun parsed =>
    match anthropicRequestToOpenai F parsed.request true with
    | .error error => .error (.refused error)
    | .ok (converted, mapping) =>
        let reuse := if parsed.reusedMessages = 0 then none
          else previous.bind fun entry => entry.native.map fun old => (entry, old)
        match reuse with
        | none => .ok (some
            { request := parsed.request
              openai := converted
              snapshot := parsed.snapshot.map fun snapshot =>
                recordCounts snapshot.convertedCounts mapping snapshot
              wirePrefixMessages := parsed.reusedMessages
              wirePrefixBytes := parsed.reusedBytes
              systemFallback := fallback })
        | some (entry, old) =>
            match safePrefix entry old mapping (messagesOf converted) parsed.reusedMessages with
            | none => .ok none
            | some prefixCount => .ok (some
                { request := parsed.request
                  openai := eraseFront mapping.systemCount converted
                  previous := some entry
                  snapshot := parsed.snapshot.map
                    (recordCounts (old.convertedCounts.take parsed.reusedMessages) mapping)
                  prefixCount := prefixCount
                  wirePrefixMessages := parsed.reusedMessages
                  wirePrefixBytes := parsed.reusedBytes
                  systemFallback := fallback })

/-- The loop; `none` where the turns are over. -/
def prepareLoop : ℕ → Option Entry → Bool → Option (Except Failure NativePreparedRequest)
  | 0, _, _ => none
  | turns + 1, previous, fallback =>
      match prepareTurn P F wire allowPrefix allowFast previous fallback with
      | .error e => some (.error e)
      | .ok (some out) => some (.ok out)
      | .ok none => prepareLoop turns none true

/-- The entry, where it has a count for each of its sources. -/
def usable (previous : Option Entry) : Option Entry :=
  previous.filter fun entry =>
    match entry.native with
    | some old => old.messages.length = old.convertedCounts.length
    | none => false

/-- `prepare_native_messages_request`, for a number of turns of its loop. -/
def prepareNativeMessagesRequest (previous : Option Entry) (turns : ℕ) :
    Option (Except Failure NativePreparedRequest) :=
  prepareLoop P F wire allowPrefix allowFast turns (usable previous) false

end Prepare

/-- The reused records of a call. -/
def NativePreparedRequest.front (out : NativePreparedRequest) : List Json :=
  ((out.previous.map Entry.messages).getD []).take out.prefixCount

/-- The entry that is built from a call: its reused records, then its converted
messages. -/
def NativePreparedRequest.entry (out : NativePreparedRequest) : Entry :=
  { messages := out.front ++ messagesOf out.openai, native := out.snapshot }

/-- The entries of a chain of calls. -/
inductive Built (P : JsonParsers) (F : FloatText) : Entry → Prop
  | intro {wire : Wire} {allowPrefix allowFast : Bool} {previous : Option Entry} {turns : ℕ}
      {out : NativePreparedRequest} (chain : ∀ entry, previous = some entry → Built P F entry)
      (call : prepareNativeMessagesRequest P F wire allowPrefix allowFast previous turns =
        some (.ok out)) : Built P F out.entry

/-! ## The messages of a request -/

section Messages

variable {before after : List (String × Json)} {front items : List Json}

theorem messagesOf_ofMembers (hafter : Others after) :
    messagesOf (.ofMembers (before ++ ("messages", .array items) :: after)) = items := by
  rw [messagesOf, find?_ofMembers hafter]

theorem eraseFront_ofMembers (hafter : Others after) (count : ℕ) :
    eraseFront count (.ofMembers (before ++ ("messages", .array items) :: after)) =
      .ofMembers (before ++ ("messages", .array (items.drop count)) :: after) := by
  have hlookup : (insertMembers [] (before ++ ("messages", .array items) :: after)).lookup
      "messages" = some (.array items) := find?_ofMembers hafter
  rw [ofMembers_eq, eraseFront, hlookup]
  simp only [replaceMember_ofMembers hafter, ofMembers_eq]

theorem sameOptions_ofMembers (hafter : Others after) (v w : Json) :
    SameOptions (.ofMembers (before ++ ("messages", v) :: after))
      (.ofMembers (before ++ ("messages", w) :: after)) := by
  refine ⟨rfl, ?_⟩
  intro key hne
  rw [ofMembers_eq, ofMembers_eq, ← replaceMember_ofMembers (v := v) hafter]
  exact lookup_replaceMember_of_ne hne _ _

variable {model : String} {options : List (String × Json)} (hoptions : Others options)

include hoptions

theorem messagesOf_openaiRequest (ms : List Json) :
    messagesOf (openaiRequest model ms options) = ms :=
  @messagesOf_ofMembers [("model", .string model)] options ms hoptions

theorem eraseFront_openaiRequest (ms : List Json) (count : ℕ) :
    eraseFront count (openaiRequest model ms options) =
      openaiRequest model (ms.drop count) options :=
  @eraseFront_ofMembers [("model", .string model)] options ms hoptions count

theorem putBack_openaiRequest (front ms : List Json) :
    putBack front (openaiRequest model ms options) = openaiRequest model (front ++ ms) options :=
  @putBack_ofMembers [("model", .string model)] options front ms hoptions

end Messages

/-! ## What an entry keeps -/

/-- The raw messages of an entry are a system prompt and what its sources are
converted to. -/
structure Kept (P : JsonParsers) (F : FloatText) (messages : List Json)
    (native : NativeMessageSnapshot) : Prop where
  intro ::
  exists_values : ∃ values system converted,
    List.Forall₂ (fun source j => Value P.leaves source j []) native.messages values ∧
      convertEach F values = .ok (converted, native.convertedCounts) ∧
        system.length = native.systemCount ∧ messages = system ++ converted

def Entry.Kept (P : JsonParsers) (F : FloatText) (entry : Entry) : Prop :=
  ∀ native, entry.native = some native → Native.Kept P F entry.messages native

section Kept

variable {P : JsonParsers} {F : FloatText}

theorem Kept.sources_value {messages : List Json} {native : NativeMessageSnapshot}
    (h : Kept P F messages native) : ∀ source ∈ native.messages, ∃ j, Value P.leaves source j [] := by
  obtain ⟨values, -, -, hvalues, -⟩ := h.exists_values
  intro source hmem
  obtain ⟨k, hk, rfl⟩ := List.mem_iff_getElem.mp hmem
  exact ⟨_, hvalues.get hk (hvalues.length_eq ▸ hk)⟩

theorem Entry.Kept.sources_value {previous : Option Entry}
    (h : ∀ entry, previous = some entry → entry.Kept P F) :
    ∀ source ∈ ((previous.bind Entry.native).map NativeMessageSnapshot.messages).getD [],
      ∃ j, Value P.leaves source j [] := by
  intro source hmem
  cases hprevious : previous.bind Entry.native with
  | none => simp [hprevious] at hmem
  | some native =>
    obtain ⟨entry, rfl, hnative⟩ := Option.bind_eq_some_iff.mp hprevious
    rw [hprevious] at hmem
    exact (h entry rfl native hnative).sources_value source hmem

theorem countReused_eq {total count : ℕ} {counts : List ℕ} {n : ℕ} (hle : count ≤ total)
    (h : countReused total count counts = some n) : n = count + counts.sum ∧ n ≤ total := by
  induction counts generalizing count with
  | nil =>
    cases h
    exact ⟨by simp, hle⟩
  | cons m counts ih =>
    rw [countReused] at h
    split at h
    next hm =>
      obtain ⟨rfl, hn⟩ := ih (by omega) h
      exact ⟨by simp; omega, hn⟩
    next => cases h

/-- A system prompt that is equal to the old one is the same. -/
theorem eq_of_equalItems {system old : List Json}
    (hsystem : system = [] ∨ ∃ text, system = [systemMessage text])
    (hlength : old.length = system.length) (h : equalItems system old = true) : system = old := by
  rcases hsystem with rfl | ⟨text, rfl⟩
  · exact (List.eq_nil_of_length_eq_zero hlength).symm
  · obtain ⟨raw, rfl⟩ := List.length_eq_one_iff.mp hlength
    rw [equalItems, agreeItems, Bool.and_eq_true] at h
    rw [eq_of_equal_systemMessage h.1]

/-- Two readings of the same sources. -/
theorem values_unique {sources : List Wire} {xs ys : List Json}
    (hx : List.Forall₂ (fun source j => Value P.leaves source j []) sources xs)
    (hy : List.Forall₂ (fun source j => Value P.leaves source j []) sources ys) : xs = ys := by
  induction hx generalizing ys with
  | nil => cases hy; rfl
  | cons hvalue _ ih =>
    cases hy with
    | cons hvalue' hrest =>
      rw [(hvalue.unique hvalue').1, ih hrest]

/-- What a call owes the conversion of the complete request. -/
structure SameConversion (out : NativePreparedRequest) (full : Json) : Prop where
  count : out.front.length = out.prefixCount
  messages : messagesOf full = out.front ++ messagesOf out.openai
  others : putBack out.front out.openai = full
  counts : ∀ snapshot, out.snapshot = some snapshot →
    snapshot.systemCount + snapshot.convertedCounts.sum = (messagesOf full).length

/-- The counts of what a built entry keeps are those of its messages. -/
theorem Kept.length_messages {messages : List Json} {snapshot : NativeMessageSnapshot}
    (h : Kept P F messages snapshot) :
    snapshot.systemCount + snapshot.convertedCounts.sum = messages.length := by
  obtain ⟨values, system, converted, -, hconvert, hsystem, rfl⟩ := h.exists_values
  rw [List.length_append, hsystem, (convertEach_counts hconvert).2]

/-! ## A turn of the loop -/

/-- How a turn ends: as the conversion of the complete request does, or by leaving
out the entry. -/
inductive Turned (P : JsonParsers) (F : FloatText) (wire : Wire) (previous : Option Entry) :
    Except Failure (Option NativePreparedRequest) → Prop
  | threw {what : String} (parse : P.parse wire = .error what) :
      Turned P F wire previous (.error (.threw what))
  | refused {whole : Json} {error : String} (parse : P.parse wire = .ok whole)
      (full : anthropicRequestToOpenai F whole true = .error error) :
      Turned P F wire previous (.error (.refused error))
  | again (had : previous ≠ none) : Turned P F wire previous (.ok none)
  | done {out : NativePreparedRequest} {whole full : Json} {mapping : AnthropicMessageMapping}
      (parse : P.parse wire = .ok whole)
      (full_eq : anthropicRequestToOpenai F whole true = .ok (full, mapping))
      (same : SameConversion out full) (kept : out.entry.Kept P F) :
      Turned P F wire previous (.ok (some out))

variable {wire : Wire} {allowPrefix allowFast : Bool} {previous : Option Entry}

theorem parseRequest_spec (wire : Wire) (allowPrefix allowFast : Bool)
    (h : ∀ entry, previous = some entry → entry.Kept P F) :
    (∃ e, P.parse wire = .error e ∧
      parseRequest P wire allowPrefix allowFast previous = .error (.threw e)) ∨
      ∃ whole parsed, P.parse wire = .ok whole ∧
        parseRequest P wire allowPrefix allowFast previous = .ok parsed ∧
        Parsed P wire (((previous.bind Entry.native).map NativeMessageSnapshot.messages).getD [])
          whole parsed := by
  rw [parseRequest]
  split
  next =>
    rcases parseNativeRequestPrefix_spec wire (previous.bind Entry.native) allowFast
      (Entry.Kept.sources_value h) with ⟨e, hparse, heq⟩ | ⟨whole, parsed, hparse, heq, hparsed⟩
    · rw [heq]
      exact .inl ⟨e, hparse, rfl⟩
    · rw [heq]
      exact .inr ⟨whole, parsed, hparse, rfl, hparsed⟩
  next =>
    rw [parseNativeRequestJson_eq]
    cases P.parse wire with
    | error e => exact .inl ⟨e, rfl, rfl⟩
    | ok whole => exact .inr ⟨whole, _, rfl, rfl, .plain⟩

/-- Without a snapshot nothing is owed beside the conversion. -/
theorem sameConversion_plain {out : NativePreparedRequest} (hprevious : out.previous = none)
    (hcount : out.prefixCount = 0) (hsnapshot : ∀ snapshot, out.snapshot = some snapshot →
      snapshot.systemCount + snapshot.convertedCounts.sum = (messagesOf out.openai).length) :
    SameConversion out out.openai := by
  have hfront : out.front = [] := by simp [NativePreparedRequest.front, hprevious]
  refine ⟨?_, ?_, ?_, hsnapshot⟩
  · rw [hfront, hcount, List.length_nil]
  · rw [hfront, List.nil_append]
  · rw [hfront, putBack_nil]

/-- What a request of a split document and the whole one are converted to. -/
theorem Split.converted {front sources : List Wire} {request whole : Json}
    (h : Split P.leaves wire front sources request whole) {values ms : List Json}
    {counts : List ℕ}
    (hvalues : List.Forall₂ (fun source j => Value P.leaves source j []) front values)
    (hconvert : convertEach F values = .ok (ms, counts)) :
    ∃ back, List.Forall₂ (fun source j => Value P.leaves source j []) sources (values ++ back) ∧
      Front F back ms counts (anthropicRequestToOpenaiImpl F request true)
        (anthropicRequestToOpenaiImpl F whole true) := by
  obtain ⟨before, after, items, back, rfl, rfl, hafter, rfl, rfl, helements⟩ := h.exists_members
  have hread : ∀ read : List (Wire × Json), (∀ item ∈ read, item ∈ items ++ back) →
      List.Forall₂ (fun source j => Value P.leaves source j []) (read.map Prod.fst)
        (read.map Prod.snd) := by
    intro read hsub
    rw [List.forall₂_map_left_iff, List.forall₂_map_right_iff, List.forall₂_same]
    intro item hitem
    exact helements.source_value item (hsub item hitem)
  obtain rfl := values_unique hvalues (hread items fun item => List.mem_append_left back)
  refine ⟨back.map Prod.snd, ?_, ?_⟩
  · rw [← List.map_append]
    exact hread _ fun item => id
  · refine impl_front (sameOptions_ofMembers hafter _ _) (find?_ofMembers hafter) ?_ hconvert true
    rw [List.map_append]
    exact find?_ofMembers hafter

theorem kept_append {sources : List Wire} {values back ms converted : List Json}
    {counts more : List ℕ}
    (hsources : List.Forall₂ (fun source j => Value P.leaves source j []) sources (values ++ back))
    (hvalues : convertEach F values = .ok (ms, counts))
    (hback : convertEach F back = .ok (converted, more)) (system : List Json) :
    Kept P F (system ++ (ms ++ converted))
      { messages := sources, convertedCounts := counts ++ more, systemCount := system.length } := by
  refine ⟨values ++ back, system, ms ++ converted, hsources, ?_, rfl, rfl⟩
  rw [convertEach_append, hvalues, hback]
  rfl

/-- What `safe` says of the system prompt and of the count. -/
theorem safePrefix_spec {entry : Entry} {old : NativeMessageSnapshot}
    {mapping : AnthropicMessageMapping} {converted : List Json} {reused n : ℕ}
    (h : safePrefix entry old mapping converted reused = some n) :
    mapping.systemCount = old.systemCount ∧
      equalItems (converted.take mapping.systemCount) (entry.messages.take mapping.systemCount) ∧
        n = old.systemCount + (old.convertedCounts.take reused).sum ∧ n ≤ entry.messages.length := by
  rw [safePrefix] at h
  split at h
  next hsafe =>
    obtain ⟨hcount, hle, hequal⟩ := hsafe
    obtain ⟨hn, hle⟩ := countReused_eq hle h
    exact ⟨hcount, hequal, hn, hle⟩
  next => cases h

/-- The reused records and the converted messages are the whole conversion. -/
theorem sameConversion_reused {out : NativePreparedRequest} {entry : Entry} {model : String}
    {system ms converted : List Json} {options : List (String × Json)} (hoptions : Others options)
    (hprevious : out.previous = some entry)
    (hfront : entry.messages.take out.prefixCount = system ++ ms)
    (hle : out.prefixCount ≤ entry.messages.length)
    (hopenai : out.openai = openaiRequest model converted options)
    (hsnapshot : ∀ snapshot, out.snapshot = some snapshot → snapshot.systemCount +
      snapshot.convertedCounts.sum = (system ++ (ms ++ converted)).length) :
    SameConversion out (openaiRequest model (system ++ (ms ++ converted)) options) := by
  have hout : out.front = system ++ ms := by
    rw [NativePreparedRequest.front, hprevious]
    exact hfront
  refine ⟨?_, ?_, ?_, ?_⟩
  · rw [hout, ← hfront, List.length_take_of_le hle]
  · rw [hout, hopenai, messagesOf_openaiRequest hoptions, messagesOf_openaiRequest hoptions,
      List.append_assoc]
  · rw [hout, hopenai, putBack_openaiRequest hoptions, List.append_assoc]
  · rw [messagesOf_openaiRequest hoptions]
    exact hsnapshot

/-- A turn either ends as the conversion of the complete request does, or leaves
out an entry. -/
theorem prepareTurn_spec (wire : Wire) (allowPrefix allowFast fallback : Bool)
    (h : ∀ entry, previous = some entry → entry.Kept P F) :
    Turned P F wire previous
      (prepareTurn P F wire allowPrefix allowFast previous fallback) := by
  rcases parseRequest_spec wire allowPrefix allowFast h with
    ⟨e, hparse, heq⟩ | ⟨whole, parsed, hparse, heq, hparsed⟩
  · rw [prepareTurn, heq]
    exact .threw hparse
  rw [prepareTurn, heq, Except.bind]
  cases hparsed with
  | plain =>
    -- The established parser read the whole request, and there is no snapshot.
    cases hfull : anthropicRequestToOpenai F whole true with
    | error error => exact .refused hparse hfull
    | ok full =>
      obtain ⟨full, mapping⟩ := full
      refine .done hparse hfull (sameConversion_plain rfl rfl ?_) ?_
      · intro snapshot hsnapshot
        cases hsnapshot
      · intro native hnative
        cases hnative
  | @split request sources reused bytes hle hsplit =>
    by_cases hr : reused = 0
    · -- Every message was parsed.
      subst hr
      have hnil : convertEach F [] = .ok ([], []) := rfl
      obtain ⟨back, hsources, hfront⟩ := hsplit.converted .nil hnil
      rcases hfront.openai with ⟨error, hpart, hfull⟩ |
        ⟨model, system, converted, options, more, -, hback, hoptions, hpart, hfull⟩
      · simp only [hpart]
        exact .refused hparse hfull
      · simp only [hpart]
        have hkept := kept_append hsources hnil hback system
        refine .done hparse hfull (sameConversion_plain rfl rfl ?_) ?_
        · intro snapshot hsnapshot
          cases hsnapshot
          rw [messagesOf_openaiRequest hoptions]
          exact hkept.length_messages
        · intro native hnative
          cases hnative
          have hmessages : messagesOf (openaiRequest model (system ++ converted) options) =
              system ++ converted := messagesOf_openaiRequest hoptions _
          simp only [NativePreparedRequest.entry, NativePreparedRequest.front, hmessages]
          exact hkept
    · -- The first messages are those of the entry.
      cases hnative : previous.bind Entry.native with
      | none => simp [hnative] at hle; exact absurd hle hr
      | some old =>
        obtain ⟨entry, rfl, hnative'⟩ := Option.bind_eq_some_iff.mp hnative
        obtain ⟨values, oldSystem, ms, hvalues, hconvert, hcount, hmessages⟩ :=
          (h entry rfl old hnative').exists_values
        rw [hnative] at hsplit
        obtain ⟨back, hsources, hfront⟩ :=
          hsplit.converted (List.forall₂_take reused hvalues) (convertEach_take hconvert reused)
        rcases hfront.openai with ⟨error, hpart, hfull⟩ |
          ⟨model, system, converted, options, more, hsystem, hback, hoptions, hpart, hfull⟩
        · simp only [hpart]
          exact .refused hparse hfull
        · simp only [hpart, if_neg hr, Option.bind_some, hnative', Option.map_some,
            messagesOf_openaiRequest hoptions]
          split
          next => exact .again (by simp)
          next n hsafe =>
            obtain ⟨hcounts, hequal, hn, hnle⟩ := safePrefix_spec hsafe
            have hlength : oldSystem.length = system.length := hcount.trans hcounts.symm
            rw [hmessages, List.take_left, ← hlength, List.take_left] at hequal
            obtain rfl := eq_of_equalItems hsystem hlength hequal
            have htake : entry.messages.take n =
                system ++ ms.take (old.convertedCounts.take reused).sum := by
              rw [hmessages, hn, ← hcounts, List.take_length_add_append]
            have hkept := kept_append hsources (convertEach_take hconvert reused) hback system
            refine .done hparse hfull
              (sameConversion_reused hoptions rfl htake hnle ?_ ?_) ?_
            · rw [eraseFront_openaiRequest hoptions, List.drop_left]
            · intro snapshot hsnapshot
              cases hsnapshot
              exact hkept.length_messages
            · intro native hnative
              cases hnative
              have hraws : (system ++ ms.take (old.convertedCounts.take reused).sum) ++ converted =
                  system ++ (ms.take (old.convertedCounts.take reused).sum ++ converted) :=
                List.append_assoc _ _ _
              simp only [NativePreparedRequest.entry, NativePreparedRequest.front, Option.map_some,
                Option.getD_some, eraseFront_openaiRequest hoptions, messagesOf_openaiRequest hoptions,
                List.drop_left, htake, hraws]
              exact hkept

/-! ## The call -/

/-- Without an entry the loop ends at its first turn, and with one at its second. -/
theorem prepareLoop_spec (wire : Wire) (allowPrefix allowFast fallback : Bool)
    (h : ∀ entry, previous = some entry → entry.Kept P F) :
    ∃ result, Turned P F wire none (result.map some) ∧ ∀ turns,
      prepareLoop P F wire allowPrefix allowFast (turns + 2) previous fallback = some result := by
  -- A turn that does not go on ends the loop.
  have hends : ∀ previous fallback result, (∀ entry, previous = some entry → entry.Kept P F) →
      prepareTurn P F wire allowPrefix allowFast previous fallback = result.map some →
      Turned P F wire none (result.map some) ∧ ∀ turns,
        prepareLoop P F wire allowPrefix allowFast (turns + 1) previous fallback = some result := by
    intro previous fallback result hkept hturn
    have hturned := prepareTurn_spec wire allowPrefix allowFast fallback hkept
    rw [hturn] at hturned
    refine ⟨?_, ?_⟩
    · cases result with
      | error e =>
        cases hturned with
        | threw parse => exact .threw parse
        | refused parse full => exact .refused parse full
      | ok out =>
        cases hturned with
        | done parse full same kept => exact .done parse full same kept
    · intro turns
      rw [prepareLoop, hturn]
      cases result <;> rfl
  cases hturn : prepareTurn P F wire allowPrefix allowFast previous fallback with
  | error e =>
    obtain ⟨hturned, hloop⟩ := hends previous fallback (.error e) h hturn
    exact ⟨_, hturned, fun turns => hloop (turns + 1)⟩
  | ok out =>
    cases out with
    | some out =>
      obtain ⟨hturned, hloop⟩ := hends previous fallback (.ok out) h hturn
      exact ⟨_, hturned, fun turns => hloop (turns + 1)⟩
    | none =>
      have hnone : ∀ entry, (none : Option Entry) = some entry → entry.Kept P F := by simp
      have hnext := prepareTurn_spec wire allowPrefix allowFast true hnone
      have hagain : ∃ result : Except Failure NativePreparedRequest,
          prepareTurn P F wire allowPrefix allowFast none true = result.map some := by
        revert hnext
        generalize prepareTurn P F wire allowPrefix allowFast none true = turn
        intro hnext
        cases hnext with
        | threw => exact ⟨.error _, rfl⟩
        | refused => exact ⟨.error _, rfl⟩
        | again had => exact absurd rfl had
        | done => exact ⟨.ok _, rfl⟩
      obtain ⟨result, hresult⟩ := hagain
      obtain ⟨hturned, hloop⟩ := hends none true result hnone hresult
      refine ⟨result, hturned, ?_⟩
      intro turns
      rw [prepareLoop, hturn]
      exact hloop turns

theorem usable_kept (h : ∀ entry, previous = some entry → entry.Kept P F) :
    ∀ entry, usable previous = some entry → entry.Kept P F := by
  intro entry hentry
  exact h entry (Option.filter_eq_some_iff.mp hentry).1

/-- The entries of a chain of calls keep what their sources are converted to. -/
theorem Built.kept {entry : Entry} (h : Built P F entry) : entry.Kept P F := by
  induction h with
  | @intro wire allowPrefix allowFast previous turns out _ call ih =>
    obtain ⟨result, hturned, hloop⟩ :=
      prepareLoop_spec wire allowPrefix allowFast false (usable_kept ih)
    have hmore : ∀ {turns previous fallback result},
        prepareLoop P F wire allowPrefix allowFast turns previous fallback = some result →
        prepareLoop P F wire allowPrefix allowFast (turns + 2) previous fallback = some result := by
      intro turns
      induction turns with
      | zero =>
        intro previous fallback result hcall
        cases hcall
      | succ turns ih =>
        intro previous fallback result hcall
        rw [prepareLoop] at hcall ⊢
        split at hcall
        next => exact hcall
        next => exact hcall
        next => exact ih hcall
    have hresult : some result = some (.ok out) := (hloop turns).symm.trans (hmore call)
    cases hresult
    cases hturned with
    | done _ _ _ kept => exact kept

/-- The result of a call, against the complete request. -/
def SameResult (F : FloatText) : Except Failure NativePreparedRequest → Except String Json → Prop
  | .ok out, .ok request => ∃ full mapping,
      anthropicRequestToOpenai F request true = .ok (full, mapping) ∧ SameConversion out full
  | .error (.refused error), .ok request =>
      anthropicRequestToOpenai F request true = .error error
  | .error (.threw what), .error e => what = e
  | _, _ => False

/-- For every wire and every entry that a chain of calls built, a call ends after at
most two turns.  It returns `false` with the error text where the conversion of the
complete request does, and otherwise the reused records and its converted messages
are the messages of that conversion, and its other members are those of the
conversion. -/
theorem nativePreparation (P : JsonParsers) (F : FloatText) (wire : Wire)
    (previous : Option Entry) (hprevious : ∀ entry, previous = some entry → Built P F entry)
    (allowPrefix allowFast : Bool) :
    ∃ result, SameResult F result (parseNativeRequestJson P wire allowFast) ∧ ∀ turns,
      prepareNativeMessagesRequest P F wire allowPrefix allowFast previous (turns + 2) =
        some result := by
  obtain ⟨result, hturned, hloop⟩ := prepareLoop_spec wire allowPrefix allowFast false
    (usable_kept fun entry hentry => (hprevious entry hentry).kept)
  refine ⟨result, ?_, hloop⟩
  rw [parseNativeRequestJson_eq]
  cases result with
  | error e =>
    cases hturned with
    | threw parse => rw [parse]; rfl
    | refused parse full => rw [parse]; exact full
  | ok out =>
    cases hturned with
    | done parse full same kept => rw [parse]; exact ⟨_, _, full, same⟩

end Kept

/-- The key that the parser reads. -/
theorem readKey_leaf {L : Leaves} {body after : Wire} {key : String}
    (h : L.string body = some key) :
    readKey (.ofLeaves L) (quote :: (body ++ quote :: after)) after = some key := by
  have hparse : (JsonParsers.ofLeaves L).parse (quote :: (body ++ [quote])) = .ok (.string key) := by
    rw [JsonParsers.parse_iff]
    exact ⟨[], .string h, rfl⟩
  rw [readKey, take_key, hparse]

/-! ## A chain of two requests -/

/-- The leaves of the witness: plain strings and the token `1`. -/
def requestLeaves : Leaves where
  scalar token := if token = [0x31] then some (.unsigned 1) else none
  string := plainLeaves.string
  scalar_token := by
    intro token j h
    split at h
    next heq =>
      subst heq
      refine ⟨⟨0x31, [], rfl, rfl⟩, by decide +kernel, ?_⟩
      intro rest
      simp [quote, openBracket, openBrace]
    next => cases h
  string_body := plainLeaves.string_body

/-- `model`, `max_tokens`, `role`, `user` and `content`. -/
def modelKey : Wire := [0x6D, 0x6F, 0x64, 0x65, 0x6C]
def maxTokensKey : Wire := [0x6D, 0x61, 0x78, 0x5F, 0x74, 0x6F, 0x6B, 0x65, 0x6E, 0x73]
def roleKey : Wire := [0x72, 0x6F, 0x6C, 0x65]
def userText : Wire := [0x75, 0x73, 0x65, 0x72]
def contentKey : Wire := [0x63, 0x6F, 0x6E, 0x74, 0x65, 0x6E, 0x74]

/-- A member whose value is a string. -/
def stringMember (key text rest : Wire) : Wire :=
  quote :: (key ++ quote :: colon :: quote :: (text ++ quote :: rest))

/-- `{"role":"user","content":"a"}`. -/
def userMessage (rest : Wire) : Wire :=
  openBrace :: stringMember roleKey userText
    (comma :: stringMember contentKey [0x61] (closeBrace :: rest))

/-- `"messages":[` and the messages. -/
def messagesMember (messages : Wire) : Wire :=
  quote :: (messagesKey ++ quote :: colon :: openBracket :: messages)

/-- `"max_tokens":1,"messages":[` and the messages. -/
def maxTokensMember (messages : Wire) : Wire :=
  quote :: (maxTokensKey ++ quote :: colon :: 0x31 :: comma :: messagesMember messages)

/-- `{"model":"a","max_tokens":1,"messages":[` and the messages. -/
def requestWire (messages : Wire) : Wire :=
  openBrace :: stringMember modelKey [0x61] (comma :: maxTokensMember messages)

/-- `]}`. -/
def finish : Wire := [closeBracket, closeBrace]

def oneRequest : Wire := requestWire (userMessage finish)

def userJson : Json := .ofMembers [("role", .string "user"), ("content", .string "a")]

def oneRequestJson : Json :=
  .ofMembers [("model", .string "a"), ("max_tokens", .unsigned 1), ("messages", .array [userJson])]

/-- What the texts of the requests say. -/
theorem requestLeaves_string : requestLeaves.string roleKey = some "role" ∧
    requestLeaves.string userText = some "user" ∧ requestLeaves.string contentKey = some "content" ∧
    requestLeaves.string [0x61] = some "a" ∧ requestLeaves.string modelKey = some "model" ∧
    requestLeaves.string maxTokensKey = some "max_tokens" ∧
    requestLeaves.string messagesKey = some "messages" := by
  decide +kernel

noncomputable def requestParsers : JsonParsers := .ofLeaves requestLeaves

theorem oneRequest_converted : anthropicRequestToOpenai Vision.oneText oneRequestJson true =
    .ok (openaiRequest "a" [userJson] [("max_tokens", .integer 1)], ⟨0, [1]⟩) := by
  rfl

theorem userMessage_value (rest : Wire) : Value requestLeaves (userMessage rest) userJson rest := by
  obtain ⟨hrole, huser, hcontent, htext, -⟩ := requestLeaves_string
  exact .object (.next rfl hrole rfl (.string huser) rfl (.last rfl hcontent rfl (.string htext) rfl))

theorem oneRequest_document : Document requestLeaves oneRequest oneRequestJson := by
  obtain ⟨-, -, -, htext, hmodel, hmax, hmessages⟩ := requestLeaves_string
  have hone : requestLeaves.scalar [0x31] = some (.unsigned 1) := rfl
  have hitem : Items requestLeaves (userMessage finish)
      [(userMessage [], userJson)] [closeBrace] :=
    .last rfl (userMessage_value finish) rfl
  exact ⟨[], .object (.next rfl hmodel rfl (.string htext) rfl
    (.next rfl hmax rfl (.scalar hone (delimited_cons rfl)) rfl
      (.last rfl hmessages rfl (.array hitem) rfl))), rfl⟩

theorem scanValue_userMessage : scanValue 0 (userMessage finish) = some finish := by
  have hcontent : scanContainer true 0
      (stringMember contentKey [0x61] (closeBrace :: finish)) = some finish := by
    have hkey : (scanString (space (stringMember contentKey [0x61] (closeBrace :: finish)))).bind
      (take colon) = some (quote :: 0x61 :: quote :: closeBrace :: finish) := rfl
    have hvalue : scanValue 1 (quote :: 0x61 :: quote :: closeBrace :: finish) =
        some (closeBrace :: finish) := by
      rw [scanValue]
      rfl
    rw [scanContainer_eq, if_pos rfl, hkey, Option.bind_some, hvalue]
    rfl
  have hrole : scanContainer true 0 (stringMember roleKey userText
      (comma :: stringMember contentKey [0x61] (closeBrace :: finish))) = some finish := by
    have hkey : (scanString (space (stringMember roleKey userText
        (comma :: stringMember contentKey [0x61] (closeBrace :: finish))))).bind (take colon) =
        some (quote :: (userText ++ quote :: comma ::
          stringMember contentKey [0x61] (closeBrace :: finish))) := rfl
    have hvalue : scanValue 1 (quote :: (userText ++ quote :: comma ::
        stringMember contentKey [0x61] (closeBrace :: finish))) =
          some (comma :: stringMember contentKey [0x61] (closeBrace :: finish)) := by
      rw [scanValue]
      rfl
    rw [scanContainer_eq, if_pos rfl, hkey, Option.bind_some, hvalue]
    exact hcontent
  rw [scanValue]
  exact hrole

/-- The messages array that the scanner finds. -/
def oneBoundaries : Boundaries :=
  ⟨userMessage finish, [⟨userMessage finish, 29⟩], finish, 0, 0⟩

theorem scanArray_userMessage : scanArray [] (openBracket :: userMessage finish) =
    some (oneBoundaries, [closeBrace]) := by
  have htake : take openBracket (openBracket :: userMessage finish) =
      some (userMessage finish) := rfl
  have hhead : ¬ (space (userMessage finish)).head? = some closeBracket := by decide
  have helement : scanElement [] (space (userMessage finish)) = some (finish, none) := by
    change (scanValue 0 (userMessage finish)).map (fun after => (after, none)) = _
    rw [scanValue_userMessage]
    rfl
  have helements : scanElements [] (userMessage finish) =
      some ([⟨userMessage finish, 29⟩], 0, 0, finish) := by
    rw [scanElements, helement]
    rfl
  rw [scanArray, htake]
  simp only [Option.bind_some, if_neg hhead, helements]
  rfl

/-- The scanner passes a member whose value it scans. -/
theorem scanFields_skip {body value next : Wire} {key : String} {keys : List String}
    (hleaf : requestLeaves.string body = some key) (hnew : key ∉ keys) (hkey : key ≠ "messages")
    (hvalue : scanValue 0 value = some (comma :: next)) :
    scanFields requestParsers [] keys none (quote :: (body ++ quote :: colon :: value)) =
      scanFields requestParsers [] (key :: keys) none next := by
  have hscan : scanString (quote :: (body ++ quote :: colon :: value)) = some (colon :: value) :=
    scanString_iff.mpr ⟨body, rfl, requestLeaves.string_body _ _ hleaf⟩
  have hread : readKey requestParsers (quote :: (body ++ quote :: colon :: value)) (colon :: value) =
      some key := readKey_leaf hleaf
  have hspace : space (quote :: (body ++ quote :: colon :: value)) =
      quote :: (body ++ quote :: colon :: value) := space_of_begins ⟨_, _, rfl, rfl⟩
  have hcolon : take colon (colon :: value) = some value := take_iff.mpr rfl
  rw [scanFields_eq, hspace, hscan, Option.bind_some, hread, Option.bind_some, if_neg hnew, hcolon,
    Option.bind_some, if_neg hkey, hvalue]
  rfl

theorem scan_oneRequest : scan requestParsers [] oneRequest = some oneBoundaries := by
  obtain ⟨-, -, -, -, hmodelKey, hmaxKey, hmessagesKey⟩ := requestLeaves_string
  have hmessages : scanFields requestParsers [] ["max_tokens", "model"] none
      (messagesMember (userMessage finish)) = some (some oneBoundaries, []) := by
    have hspace : space (messagesMember (userMessage finish)) =
      messagesMember (userMessage finish) := rfl
    have hstring : scanString (messagesMember (userMessage finish)) =
      some (colon :: openBracket :: userMessage finish) := rfl
    have hcolon : take colon (colon :: openBracket :: userMessage finish) =
      some (openBracket :: userMessage finish) := rfl
    have hread : readKey requestParsers (messagesMember (userMessage finish))
      (colon :: openBracket :: userMessage finish) = some "messages" := readKey_leaf hmessagesKey
    rw [scanFields_eq, hspace, hstring, Option.bind_some, hread, Option.bind_some,
      if_neg (by decide), hcolon, Option.bind_some, if_pos rfl, scanArray_userMessage]
    rfl
  have hone : scanValue 0 (0x31 :: comma :: messagesMember (userMessage finish)) =
      some (comma :: messagesMember (userMessage finish)) := by
    rw [scanValue]
    rfl
  have hmax : scanFields requestParsers [] ["model"] none
      (maxTokensMember (userMessage finish)) = some (some oneBoundaries, []) :=
    (scanFields_skip hmaxKey (by decide) (by decide) hone).trans hmessages
  have ha : scanValue 0 (quote :: 0x61 :: quote :: comma :: maxTokensMember (userMessage finish)) =
      some (comma :: maxTokensMember (userMessage finish)) := by
    rw [scanValue]
    rfl
  have hmodel : scanFields requestParsers [] [] none
      (stringMember modelKey [0x61] (comma :: maxTokensMember (userMessage finish))) =
        some (some oneBoundaries, []) :=
    (scanFields_skip hmodelKey (by decide) (by decide) ha).trans hmax
  have hopen : take openBrace oneRequest = some
      (stringMember modelKey [0x61] (comma :: maxTokensMember (userMessage finish))) := rfl
  have hmembers : ¬ (take closeBrace
      (stringMember modelKey [0x61] (comma :: maxTokensMember (userMessage finish)))).isSome := by
    decide
  rw [scan, hopen, Option.bind_some, if_neg hmembers, hmodel]
  rfl

/-- What the first request leaves in the cache. -/
def oneEntry : Entry :=
  { messages := [userJson]
    native := some { messages := [userMessage []], convertedCounts := [1] } }

theorem built_oneEntry : Built requestParsers Vision.oneText oneEntry := by
  have hparse : requestParsers.parse oneRequest = .ok oneRequestJson :=
    (requestParsers.parse_iff _ _).mpr oneRequest_document
  have hrequest : parseRequest requestParsers oneRequest true true none =
      .ok { request := oneRequestJson, snapshot := some { messages := [userMessage []] } } := by
    simp only [parseRequest, parseNativeRequestPrefix, Option.bind_none, Option.map_none,
      Option.getD_none, scan_oneRequest, parseNativeRequestJson_eq, hparse]
    rfl
  have hcall : prepareNativeMessagesRequest requestParsers Vision.oneText oneRequest true true none 1 =
      some (.ok
        { request := oneRequestJson
          openai := openaiRequest "a" [userJson] [("max_tokens", .integer 1)]
          snapshot := some { messages := [userMessage []], convertedCounts := [1] } }) := by
    have hturn : prepareTurn requestParsers Vision.oneText oneRequest true true none false =
      .ok (some
        { request := oneRequestJson
          openai := openaiRequest "a" [userJson] [("max_tokens", .integer 1)]
          snapshot := some { messages := [userMessage []], convertedCounts := [1] } }) := by
      rw [prepareTurn, hrequest]
      simp only [Except.bind, oneRequest_converted]
      rfl
    have husable : usable none = none := rfl
    rw [prepareNativeMessagesRequest, husable, prepareLoop, hturn]
  have hentry := Built.intro (by simp) hcall
  exact hentry

/-- The request with one message more reuses the first. -/
theorem nativePreparation_oneMore : ∃ result,
    SameResult Vision.oneText result (parseNativeRequestJson requestParsers
      (requestWire (userMessage (comma :: userMessage finish))) true) ∧ ∀ turns,
      prepareNativeMessagesRequest requestParsers Vision.oneText
        (requestWire (userMessage (comma :: userMessage finish))) true true (some oneEntry)
        (turns + 2) = some result := by
  have hbuilt : ∀ entry, some oneEntry = some entry →
      Built requestParsers Vision.oneText entry := by
    intro entry h
    cases h
    exact built_oneEntry
  exact nativePreparation requestParsers Vision.oneText
    (requestWire (userMessage (comma :: userMessage finish))) (some oneEntry) hbuilt true true

end Qw3.Native
