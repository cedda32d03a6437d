import Mathlib.Data.FinEnum
import Qw3.Json.Members
import Qw3.Native.Boundaries

/-!
# Prefix parsing

A request parsed without the messages of a snapshot, against the whole request.

* `scanFields_spec` — where the scanner finds the messages array, a document has it
  too, and only there.
* `Boundaries.reduced_document` — the document without its reused messages is the
  whole one without the values of those messages.
* `putBack` — the values put back.
* `prefixParsing` — parsing without the messages and putting them back is parsing
  the whole request.
-/

namespace Qw3.Native

open Json

/-! ## The members -/

/-- What the scanner found of the array. -/
def FoundArray (L : Leaves) (old : List Wire) (b : Boundaries) (rest : Wire) : Prop :=
  (b.spans = [] ∧ b.reused = 0 ∧ space b.arrayBegin = closeBracket :: rest ∧
    b.arrayEnd = closeBracket :: rest) ∨ Found L old b rest

variable {old : List Wire} {b : Boundaries}

theorem scanArray_spec {L : Leaves} {text rest : Wire}
    (hold : ∀ source ∈ old, ∃ j, Value L source j [])
    (h : scanArray old text = some (b, rest)) :
    space text = openBracket :: b.arrayBegin ∧ FoundArray L old b rest := by
  obtain ⟨arrayBegin, hbegin, h⟩ := Option.bind_eq_some_iff.mp h
  obtain ⟨⟨spans, reused, bytes, stop⟩, hscanned, h⟩ := Option.bind_eq_some_iff.mp h
  obtain ⟨rest', hclose, heq⟩ := Option.map_eq_some_iff.mp h
  cases heq
  refine ⟨take_iff.mp hbegin, ?_⟩
  have hclose := take_iff.mp hclose
  split at hscanned
  next hempty =>
    obtain ⟨tail, htail⟩ := space_of_head hempty
    cases hscanned
    rw [space_space] at hclose
    exact .inl ⟨rfl, rfl, hclose, hclose⟩
  next =>
    obtain ⟨tail, hstop, hfound⟩ := scanElements_spec hold hscanned
    subst hstop
    rw [space, List.dropWhile_cons_of_neg (by decide)] at hclose
    cases hclose
    exact .inr hfound

variable {P : JsonParsers}

/-- What the scanner has passed is the key in its quotes. -/
theorem take_key (body after : Wire) : (quote :: (body ++ quote :: after)).take
    ((quote :: (body ++ quote :: after)).length - after.length) = quote :: (body ++ [quote]) := by
  have hlength : (quote :: (body ++ quote :: after)).length - after.length =
      (quote :: (body ++ [quote])).length := by
    simp
    omega
  have hsplit : quote :: (body ++ quote :: after) = (quote :: (body ++ [quote])) ++ after := by
    simp
  rw [hlength, hsplit, List.take_left]

/-- The parser reads a key that the grammar has. -/
theorem readKey_spec {start after : Wire} {key : String} (hscan : scanString start = some after)
    (h : readKey P start after = some key) :
    ∃ body, start = quote :: (body ++ quote :: after) ∧ P.leaves.string body = some key := by
  obtain ⟨body, rfl, hbody⟩ := scanString_iff.mp hscan
  rw [readKey, take_key] at h
  split at h
  next key' hparse =>
    cases h
    obtain ⟨rest, hvalue, -⟩ := (P.parse_iff _ _).mp hparse
    have hspace : space (quote :: (body ++ quote :: [])) = quote :: (body ++ quote :: []) :=
      space_of_begins ⟨_, _, rfl, rfl⟩
    rw [hspace] at hvalue
    generalize htext : quote :: (body ++ quote :: []) = text at hvalue
    cases hvalue with
    | scalar leaf _ => exact absurd htext.symm (scalar_ne leaf _ _).1
    | string leaf =>
      simp only [List.cons.injEq, true_and] at htext
      obtain ⟨rfl, rfl⟩ := stringBody_unique hbody (P.leaves.string_body _ _ leaf) htext
      exact ⟨body, rfl, leaf⟩
  next => cases h

/-- One turn of the loop over the members. -/
theorem scanFields_step {keys : List String} {found : Option Boundaries}
    {text final : Wire} {found' : Option Boundaries}
    (h : scanFields P old keys found text = some (found', final)) :
    ∃ body after inner key mid found'', space text = quote :: (body ++ quote :: after) ∧
      P.leaves.string body = some key ∧ space after = colon :: inner ∧ key ∉ keys ∧
      ((key = "messages" ∧ ∃ b, scanArray old inner = some (b, mid) ∧ found'' = some b) ∨
        key ≠ "messages" ∧ scanValue 0 inner = some mid ∧ found'' = found) ∧
      ((found' = found'' ∧ space mid = closeBrace :: final) ∨
        ∃ next, space mid = comma :: next ∧ next.length < text.length ∧
          scanFields P old (key :: keys) found'' next = some (found', final)) := by
  rw [scanFields] at h
  dsimp only at h
  split at h
  next => cases h
  next after hscan =>
    split at h
    next => cases h
    next key hkey =>
      obtain ⟨body, hstart, hleaf⟩ := readKey_spec hscan hkey
      split at h
      next => cases h
      next hnew =>
        split at h
        next => cases h
        next inner hcolon =>
          split at h
          next => cases h
          next found'' mid hscanned =>
            refine ⟨body, after, inner, key, mid, found'', hstart, hleaf, take_iff.mp hcolon, hnew,
              ?_, ?_⟩
            · split at hscanned
              next hmessages =>
                obtain ⟨⟨b, mid'⟩, hb, heq⟩ := Option.map_eq_some_iff.mp hscanned
                cases heq
                exact .inl ⟨hmessages, b, hb, rfl⟩
              next hother =>
                obtain ⟨mid', hmid, heq⟩ := Option.map_eq_some_iff.mp hscanned
                cases heq
                exact .inr ⟨hother, hmid, rfl⟩
            · split at h
              next final' hclose =>
                cases h
                exact .inl ⟨rfl, take_iff.mp hclose⟩
              next =>
                split at h
                next => cases h
                next next' hcomma =>
                  split at h
                  next hlt => exact .inr ⟨next', take_iff.mp hcomma, hlt, h⟩
                  next => cases h

/-- After the array is found there is no other. -/
theorem scanFields_after {keys : List String} {found found' : Option Boundaries}
    {text final : Wire} (hkeys : "messages" ∈ keys)
    (h : scanFields P old keys found text = some (found', final)) :
    found' = found ∧ ∀ members rest, Members P.leaves text members rest →
      ∀ m ∈ members, m.1 ≠ "messages" := by
  obtain ⟨body, after, inner, key, mid, found'', hstart, hleaf, hcolon, hnew, hvalue, hnext⟩ :=
    scanFields_step h
  have hkey : key ≠ "messages" := fun heq => hnew (heq ▸ hkeys)
  rcases hvalue with ⟨heq, -⟩ | ⟨-, hscan, rfl⟩
  · exact absurd heq hkey
  · obtain ⟨j, hj⟩ := scanValue_sound hscan
    rcases hnext with ⟨rfl, hclose⟩ | ⟨next, hcomma, hlt, hrest⟩
    · refine ⟨rfl, ?_⟩
      intro members rest hm
      cases hm with
      | last start' leaf' sep' value' close' =>
        obtain ⟨rfl, rfl, rfl⟩ := member_unique hstart hleaf hcolon start' leaf' sep'
        simpa using hkey
      | next start' leaf' sep' value' more' others' =>
        obtain ⟨rfl, rfl, rfl⟩ := member_unique hstart hleaf hcolon start' leaf' sep'
        obtain rfl := value'.lenient_unique hj
        rw [hclose] at more'
        simp [closeBrace, comma] at more'
    · obtain ⟨hfound, hothers⟩ := scanFields_after (List.mem_cons_of_mem _ hkeys) hrest
      refine ⟨hfound, ?_⟩
      intro members rest hm
      cases hm with
      | last start' leaf' sep' value' close' =>
        obtain ⟨rfl, rfl, rfl⟩ := member_unique hstart hleaf hcolon start' leaf' sep'
        simpa using hkey
      | next start' leaf' sep' value' more' others' =>
        obtain ⟨rfl, rfl, rfl⟩ := member_unique hstart hleaf hcolon start' leaf' sep'
        obtain rfl := value'.lenient_unique hj
        rw [hcomma] at more'
        obtain rfl := (List.cons.inj more').2
        intro m hmem
        rcases List.mem_cons.mp hmem with rfl | hmem
        · exact hkey
        · exact hothers _ _ others' m hmem
termination_by text.length

/-- The scanner finds the array after members that it scans, and finds no other
one. -/
theorem scanFields_spec {keys : List String} {text final : Wire}
    (hold : ∀ source ∈ old, ∃ j, Value P.leaves source j [])
    (h : scanFields P old keys none text = some (some b, final)) :
    ∃ before mid, Head P.leaves Leaves.lenient text before b.arrayBegin ∧
      FoundArray P.leaves old b mid ∧ ∀ members rest, Tail P.leaves mid members rest →
        ∀ m ∈ members, m.1 ≠ "messages" := by
  obtain ⟨body, after, inner, key, mid, found'', hstart, hleaf, hcolon, -, hvalue, hnext⟩ :=
    scanFields_step h
  rcases hvalue with ⟨rfl, b', hscan, rfl⟩ | ⟨-, hscan, rfl⟩
  · obtain ⟨hopens, hfound⟩ := scanArray_spec hold hscan
    rcases hnext with ⟨heq, hclose⟩ | ⟨next, hcomma, -, hrest⟩
    · cases heq
      refine ⟨[], mid, .here hstart hleaf hcolon hopens, hfound, ?_⟩
      intro members rest htail
      rcases htail with ⟨rfl, -⟩ | ⟨text', hcomma, -⟩
      · simp
      · rw [hclose] at hcomma
        simp [closeBrace, comma] at hcomma
    · obtain ⟨heq, hothers⟩ := scanFields_after List.mem_cons_self hrest
      cases heq
      refine ⟨[], mid, .here hstart hleaf hcolon hopens, hfound, ?_⟩
      intro members rest htail
      rcases htail with ⟨rfl, -⟩ | ⟨text', hcomma', hmembers⟩
      · simp
      · rw [hcomma] at hcomma'
        obtain rfl := (List.cons.inj hcomma').2
        exact hothers _ _ hmembers
  · obtain ⟨j, hj⟩ := scanValue_sound hscan
    rcases hnext with ⟨heq, -⟩ | ⟨next, hcomma, hlt, hrest⟩
    · cases heq
    · obtain ⟨before, mid', hhead, hfound, hothers⟩ := scanFields_spec hold hrest
      exact ⟨_, mid', .skip hstart hleaf hcolon hj hcomma hhead, hfound, hothers⟩
termination_by text.length

/-! ## The array -/

section Array

variable {L : Leaves} {old : List Wire} {b : Boundaries} {rest mid : Wire} {j : Json}

/-- The elements where the loop found others with every token allowed. -/
theorem Elements.of_lenient {text : Wire} {items others : List (Wire × Json)}
    (h : Elements L text items mid) (hothers : Items Leaves.lenient text others rest) :
    Items L text items mid ∧ mid = rest ∧ items.map Prod.fst = others.map Prod.fst := by
  rcases h with ⟨-, hclose⟩ | hitems
  · exact absurd hclose hothers.not_close
  · exact ⟨hitems, hitems.lenient_unique hothers⟩

/-- The array without its reused messages, and the array. -/
theorem array_of_suffix (hfound : FoundArray L old b rest) (hr : b.reused ≠ 0)
    (hvalue : Value L (openBracket :: b.suffix) j mid) :
    mid = rest ∧ ∃ items back, j = .array (back.map Prod.snd) ∧
      items.map Prod.fst = old.take b.reused ∧ Elements L b.arrayBegin (items ++ back) rest ∧
      b.sources old = (items ++ back).map Prod.fst := by
  obtain ⟨back, rfl, hback⟩ := value_openBracket hvalue
  rcases hfound with ⟨-, hzero, -⟩ | ⟨-, items, hitems, hcase⟩
  · exact absurd hzero hr
  · rcases hcase with ⟨hlength, hall, hend⟩ | ⟨text, others, span, hread, hspan, hstart, hothers, hs⟩
    · -- Every element is reused.
      have hnone : b.spans[b.reused]? = none := List.getElem?_eq_none (by omega)
      have hsuffix : b.suffix = closeBracket :: rest := by rw [Boundaries.suffix, hnone, hend]
      have hspace : space b.suffix = closeBracket :: rest := by
        rw [hsuffix, space, List.dropWhile_cons_of_neg (by decide)]
      have hdrop : b.spans.drop b.reused = [] := List.drop_eq_nil_of_le (by omega)
      rcases hback with ⟨rfl, hclose⟩ | hinner
      · rw [hspace] at hclose
        refine ⟨(List.cons.inj hclose).2.symm, items, [], rfl, hitems, ?_, ?_⟩
        · rw [List.append_nil]
          exact .inr hall
        · rw [Boundaries.sources, hdrop, List.append_nil, hitems]
          simp
      · exact absurd hspace hinner.not_close
    · -- The elements from the first that is not.
      have hsuffix : b.suffix = space text := by
        rw [Boundaries.suffix, hspan]
        exact hstart
      rw [hsuffix] at hback
      have hback' : Elements L text back mid := by
        rcases hback with ⟨rfl, hclose⟩ | hinner
        · rw [space_space] at hclose
          exact .inl ⟨rfl, hclose⟩
        · exact .inr (items_of_space hinner)
      obtain ⟨hinner, rfl, hsources⟩ := hback'.of_lenient hothers
      refine ⟨rfl, items, back, rfl, hitems, .inr (hread.join hinner), ?_⟩
      rw [Boundaries.sources, hs, List.map_append, hitems, hsources]

/-- Where nothing is reused. -/
theorem array_whole (hfound : FoundArray L old b rest) (hr : b.reused = 0)
    (hvalue : Value L (openBracket :: b.arrayBegin) j mid) :
    mid = rest ∧ ∃ back, j = .array (back.map Prod.snd) ∧ Elements L b.arrayBegin back rest ∧
      b.sources old = back.map Prod.fst := by
  obtain ⟨back, rfl, hback⟩ := value_openBracket hvalue
  rcases hfound with ⟨hspans, -, hclose, -⟩ | ⟨-, items, hitems, hcase⟩
  · rcases hback with ⟨rfl, hclose'⟩ | hinner
    · rw [hclose] at hclose'
      refine ⟨(List.cons.inj hclose').2.symm, [], rfl, .inl ⟨rfl, hclose⟩, ?_⟩
      simp [Boundaries.sources, hr, hspans]
    · exact absurd hclose hinner.not_close
  · have hnil : items = [] := by simpa [hr] using hitems
    subst hnil
    rcases hcase with ⟨-, hall, -⟩ | ⟨text, others, span, hread, -, -, hothers, hs⟩
    · exact absurd rfl hall.ne_nil
    · cases hread
      obtain ⟨hinner, rfl, hsources⟩ := hback.of_lenient hothers
      refine ⟨rfl, back, rfl, .inr hinner, ?_⟩
      rw [Boundaries.sources, hs, hr, List.take_zero, List.nil_append, hsources]

end Array

/-! ## The document -/

/-- The elements of the top-level `messages` array of a document, with their
sources. -/
def MessageElements (L : Leaves) (wire : Wire) (items : List (Wire × Json)) : Prop :=
  ∃ text before array mid, space wire = openBrace :: text ∧ Head L L text before array ∧
    Elements L array items mid

variable {wire : Wire}

theorem MessageElements.source_value {L : Leaves} {items : List (Wire × Json)}
    (h : MessageElements L wire items) : ∀ item ∈ items, Value L item.1 item.2 [] := by
  obtain ⟨text, before, array, mid, -, -, ⟨rfl, -⟩ | hitems⟩ := h
  · simp
  · exact hitems.source_value

theorem scan_spec
    (hold : ∀ source ∈ old, ∃ j, Value P.leaves source j []) (h : scan P old wire = some b) :
    ∃ text before mid, space wire = openBrace :: text ∧
      Head P.leaves Leaves.lenient text before b.arrayBegin ∧ FoundArray P.leaves old b mid ∧
      ∀ members rest, Tail P.leaves mid members rest → ∀ m ∈ members, m.1 ≠ "messages" := by
  obtain ⟨text, hopen, h⟩ := Option.bind_eq_some_iff.mp h
  split at h
  next => cases h
  next =>
    obtain ⟨⟨found, final⟩, hfields, h⟩ := Option.bind_eq_some_iff.mp h
    dsimp only at h
    split at h
    next =>
      subst h
      obtain ⟨before, mid, hhead, hfound, hothers⟩ := scanFields_spec hold hfields
      exact ⟨text, before, mid, take_iff.mp hopen, hhead, hfound, hothers⟩
    next => cases h

theorem Head.not_close {L V : Leaves} {text array rest : Wire} {before : List (String × Json)}
    (h : Head L V text before array) : space text ≠ closeBrace :: rest := by
  intro hclose
  cases h with
  | here start _ _ _ => simp [start, quote, closeBrace] at hclose
  | skip start _ _ _ _ _ => simp [start, quote, closeBrace] at hclose

/-- The members of a parsed document, those of the whole one, and the elements of
its messages array. -/
structure Split (L : Leaves) (wire : Wire) (front sources : List Wire) (parsed whole : Json) :
    Prop where
  intro ::
  exists_members : ∃ before after items back,
    parsed = .ofMembers (before ++ ("messages", .array (back.map Prod.snd)) :: after) ∧
    whole = .ofMembers (before ++ ("messages", .array ((items ++ back).map Prod.snd)) :: after) ∧
    (∀ m ∈ after, m.1 ≠ "messages") ∧ items.map Prod.fst = front ∧
    sources = (items ++ back).map Prod.fst ∧ MessageElements L wire (items ++ back)
  document : Document L wire whole

/-- A document with another array in the place of its own. -/
theorem document_replace {L : Leaves} {wire text array array' : Wire} {scanned : List (String × Json)}
    {j : Json} (hopen : space wire = openBrace :: text)
    (hhead : Head L Leaves.lenient text scanned array)
    (hdoc : Document L (wire.take (wire.length - array.length) ++ array') j) :
    ∃ before value mid after rest, j = .ofMembers (before ++ ("messages", value) :: after) ∧
      Value L (openBracket :: array') value mid ∧ Tail L mid after rest ∧
      Head L L text before array ∧ space rest = [] := by
  obtain ⟨v, rfl, hframe⟩ := hhead.frame
  obtain ⟨w, hwire, hspace⟩ := frame_byte hopen
  have htake : wire.take (wire.length - array.length) = w ++ openBrace :: v := by
    have hsplit : w ++ openBrace :: (v ++ array) = (w ++ openBrace :: v) ++ array := by simp
    rw [hwire, hsplit, List.length_append, Nat.add_sub_cancel, List.take_left]
  obtain ⟨rest, hvalue, hrest⟩ := hdoc
  have hreduced : w ++ openBrace :: v ++ array' = w ++ openBrace :: (v ++ array') := by simp
  rw [htake, hreduced, hspace] at hvalue
  rcases value_openBrace hvalue with hclose | ⟨members, rfl, hmembers⟩
  · exact absurd hclose (hframe array').not_close
  · obtain ⟨before, value, mid, after, rfl, hhead', harray, htail⟩ := (hframe array').split hmembers
    obtain ⟨v', hv', hframe'⟩ := hhead'.frame
    obtain rfl : v = v' := List.append_cancel_right hv'
    exact ⟨before, value, mid, after, rest, rfl, harray, htail, hframe' array, hrest⟩

/-- What the parser reads of the document without its reused messages is the whole
document without their values. -/
theorem reduced_document {j : Json}
    (hold : ∀ source ∈ old, ∃ j, Value P.leaves source j []) (hscan : scan P old wire = some b)
    (hr : b.reused ≠ 0) (hdoc : Document P.leaves (b.reduced wire) j) :
    ∃ whole, Split P.leaves wire (old.take b.reused) (b.sources old) j whole := by
  obtain ⟨text, scanned, stop, hopen, hhead, hfound, hothers⟩ := scan_spec hold hscan
  obtain ⟨before, value, mid, after, rest, rfl, harray, htail, hhead', hrest⟩ :=
    document_replace hopen hhead hdoc
  obtain ⟨rfl, items, back, rfl, hitems, helements, hsources⟩ := array_of_suffix hfound hr harray
  refine ⟨_, ⟨before, after, items, back, rfl, rfl, hothers after rest htail, hitems, hsources,
    text, before, _, mid, hopen, hhead', helements⟩, rest, ?_, hrest⟩
  rw [hopen]
  exact .object (hhead'.join helements.value htail)

/-- Where nothing is reused, the document is the whole one. -/
theorem whole_document {j : Json}
    (hold : ∀ source ∈ old, ∃ j, Value P.leaves source j []) (hscan : scan P old wire = some b)
    (hr : b.reused = 0) (hdoc : Document P.leaves wire j) :
    Split P.leaves wire (old.take b.reused) (b.sources old) j j := by
  obtain ⟨text, scanned, stop, hopen, hhead, hfound, hothers⟩ := scan_spec hold hscan
  have hsame : wire.take (wire.length - b.arrayBegin.length) ++ b.arrayBegin = wire := by
    obtain ⟨v, rfl, -⟩ := hhead.frame
    obtain ⟨w, rfl, -⟩ := frame_byte hopen
    have hsplit : w ++ openBrace :: (v ++ b.arrayBegin) = (w ++ openBrace :: v) ++ b.arrayBegin := by
      simp
    rw [hsplit, List.length_append, Nat.add_sub_cancel, List.take_left]
  have hdoc' := hdoc
  rw [← hsame] at hdoc'
  obtain ⟨before, value, mid, after, rest, rfl, harray, htail, hhead', -⟩ :=
    document_replace hopen hhead hdoc'
  obtain ⟨rfl, back, rfl, helements, hsources⟩ := array_whole hfound hr harray
  refine ⟨⟨before, after, [], back, rfl, rfl, hothers after rest htail, ?_, hsources,
    text, before, _, mid, hopen, hhead', helements⟩, hdoc⟩
  rw [hr, List.take_zero, List.map_nil]

/-! ## The request -/

/-- The values put back at the front of `request["messages"]`. -/
def putBack (front : List Json) : Json → Json
  | .object members =>
      match members.lookup "messages" with
      | some (.array items) =>
          .object (replaceMember "messages" (.array (front ++ items)) members)
      | _ => .object members
  | j => j

theorem putBack_nil (j : Json) : putBack [] j = j := by
  cases j with
  | object members =>
    rw [putBack]
    split
    next items h => rw [List.nil_append, replaceMember_lookup h]
    next => rfl
  | _ => rfl

theorem putBack_ofMembers {before after : List (String × Json)} {front items : List Json}
    (hafter : ∀ m ∈ after, m.1 ≠ "messages") :
    putBack front (.ofMembers (before ++ ("messages", .array items) :: after)) =
      .ofMembers (before ++ ("messages", .array (front ++ items)) :: after) := by
  have hlookup : (insertMembers [] (before ++ ("messages", .array items) :: after)).lookup
      "messages" = some (.array items) := find?_ofMembers hafter
  rw [ofMembers_eq, putBack, hlookup]
  simp only [replaceMember_ofMembers hafter, ofMembers_eq]

theorem parseNativeRequestJson_eq (P : JsonParsers) (wire : Wire) (allowFast : Bool) :
    parseNativeRequestJson P wire allowFast = P.parse wire := by
  rw [parseNativeRequestJson]
  split
  next => rfl
  next =>
    split
    next j h =>
      obtain ⟨doc, hdoc, hconvert⟩ := Option.bind_eq_some_iff.mp h
      exact (P.yyjson_subset wire doc j hdoc hconvert).symm
    next => rfl

/-- How a request is parsed: as a whole and without a snapshot, or without the
reused messages. -/
inductive Parsed (P : JsonParsers) (wire : Wire) (old : List Wire) (whole : Json) :
    NativeRequestParse → Prop
  | plain : Parsed P wire old whole { request := whole }
  | split {parsed : Json} {sources : List Wire} {reused bytes : ℕ} (hle : reused ≤ old.length)
      (hsplit : Split P.leaves wire (old.take reused) sources parsed whole) :
      Parsed P wire old whole
        { request := parsed, snapshot := some { messages := sources }, reusedMessages := reused,
          reusedBytes := bytes }

theorem FoundArray.reused_le {L : Leaves} {rest : Wire}
    (h : FoundArray L old b rest) : b.reused ≤ old.length := by
  rcases h with ⟨-, hzero, -⟩ | ⟨hle, -⟩
  · omega
  · exact hle

/-- What `parse_native_request_prefix` returns: it throws where parsing the whole
wire does. -/
theorem parseNativeRequestPrefix_spec (wire : Wire) (previous : Option NativeMessageSnapshot)
    (allowFast : Bool)
    (hold : ∀ source ∈ (previous.map NativeMessageSnapshot.messages).getD [],
      ∃ j, Value P.leaves source j []) :
    (∃ e, P.parse wire = .error e ∧ parseNativeRequestPrefix P wire previous allowFast = .error e) ∨
      ∃ whole parsed, P.parse wire = .ok whole ∧
        parseNativeRequestPrefix P wire previous allowFast = .ok parsed ∧
        Parsed P wire ((previous.map NativeMessageSnapshot.messages).getD []) whole parsed := by
  rw [parseNativeRequestPrefix]
  generalize (previous.map NativeMessageSnapshot.messages).getD [] = old at hold ⊢
  simp only [parseNativeRequestJson_eq]
  -- The established parser on the whole wire, and no snapshot.
  have plain : (∃ e, P.parse wire = .error e ∧
      (P.parse wire).map (fun request => ({ request } : NativeRequestParse)) = .error e) ∨
        ∃ whole parsed, P.parse wire = .ok whole ∧
          (P.parse wire).map (fun request => ({ request } : NativeRequestParse)) = .ok parsed ∧
          Parsed P wire old whole parsed := by
    cases P.parse wire with
    | error e => exact .inl ⟨e, rfl, rfl⟩
    | ok whole => exact .inr ⟨whole, _, rfl, rfl, .plain⟩
  cases hscan : scan P old wire with
  | none => exact plain
  | some b =>
    obtain ⟨_, _, _, _, _, hfound, _⟩ := scan_spec hold hscan
    dsimp only
    split
    next hr =>
      cases hreduced : P.parse (b.reduced wire) with
      | error e => exact plain
      | ok request =>
        obtain ⟨whole, hsplit⟩ :=
          reduced_document hold hscan hr ((P.parse_iff _ _).mp hreduced)
        exact .inr ⟨whole, _, (P.parse_iff _ _).mpr hsplit.document, rfl,
          .split hfound.reused_le hsplit⟩
    next hr =>
      have hr : b.reused = 0 := not_not.mp hr
      cases hwhole : P.parse wire with
      | error e => exact .inl ⟨e, rfl, rfl⟩
      | ok whole =>
        have hsplit := whole_document hold hscan hr ((P.parse_iff _ _).mp hwhole)
        rw [hr] at hsplit
        exact .inr ⟨whole, _, rfl, rfl, .split (Nat.zero_le _) hsplit⟩

/-! ## The chain of requests -/

/-- The snapshots that a chain of requests returns.  Between the requests the
converter's counts are filled in. -/
inductive Returned (P : JsonParsers) : NativeMessageSnapshot → Prop
  | first {wire : Wire} {allowFast : Bool} {parsed : NativeRequestParse}
      {snapshot : NativeMessageSnapshot}
      (returned : parseNativeRequestPrefix P wire none allowFast = .ok parsed)
      (held : parsed.snapshot = some snapshot) : Returned P snapshot
  | next {wire : Wire} {allowFast : Bool} {parsed : NativeRequestParse}
      {previous snapshot : NativeMessageSnapshot} (counts : List ℕ) (systemCount : ℕ)
      (chain : Returned P previous)
      (returned : parseNativeRequestPrefix P wire
        (some { previous with convertedCounts := counts, systemCount := systemCount })
        allowFast = .ok parsed)
      (held : parsed.snapshot = some snapshot) : Returned P snapshot

theorem Split.sources_value {front sources : List Wire} {parsed whole : Json}
    (h : Split P.leaves wire front sources parsed whole) :
    ∀ source ∈ sources, ∃ j, Value P.leaves source j [] := by
  obtain ⟨-, -, items, back, -, -, -, -, rfl, helements⟩ := h.exists_members
  intro source hmem
  obtain ⟨item, hitem, rfl⟩ := List.mem_map.mp hmem
  exact ⟨item.2, helements.source_value item hitem⟩

theorem Parsed.sources_value {whole : Json}
    {parsed : NativeRequestParse} {snapshot : NativeMessageSnapshot}
    (h : Parsed P wire old whole parsed) (held : parsed.snapshot = some snapshot) :
    ∀ source ∈ snapshot.messages, ∃ j, Value P.leaves source j [] := by
  cases h with
  | plain => cases held
  | split _ hsplit =>
    cases held
    exact hsplit.sources_value

/-- A parse keeps the messages of its snapshot values. -/
theorem snapshot_sources_value {previous : Option NativeMessageSnapshot}
    {allowFast : Bool} {parsed : NativeRequestParse} {snapshot : NativeMessageSnapshot}
    (hold : ∀ source ∈ (previous.map NativeMessageSnapshot.messages).getD [],
      ∃ j, Value P.leaves source j [])
    (returned : parseNativeRequestPrefix P wire previous allowFast = .ok parsed)
    (held : parsed.snapshot = some snapshot) :
    ∀ source ∈ snapshot.messages, ∃ j, Value P.leaves source j [] := by
  rcases parseNativeRequestPrefix_spec wire previous allowFast hold with
    ⟨e, -, he⟩ | ⟨whole, parsed', -, hok, hp⟩
  · rw [returned] at he
    cases he
  · rw [returned] at hok
    cases hok
    exact hp.sources_value held

/-- The messages of a returned snapshot are values. -/
theorem Returned.sources_value {snapshot : NativeMessageSnapshot} (h : Returned P snapshot) :
    ∀ source ∈ snapshot.messages, ∃ j, Value P.leaves source j [] := by
  induction h with
  | first returned held =>
    refine snapshot_sources_value ?_ returned held
    intro source hmem
    cases hmem
  | next counts systemCount _ returned held ih =>
    refine snapshot_sources_value ?_ returned held
    exact ih

/-- What a parse with a prefix owes the parse of the whole wire. -/
structure SameRequest (P : JsonParsers) (wire : Wire) (old : List Wire)
    (parsed : NativeRequestParse) (whole : Json) : Prop where
  /-- The reused sources parse to values that, put back, give the request. -/
  request : ∃ front, List.Forall₂ (fun source j => P.parse source = .ok j)
      (old.take parsed.reusedMessages) front ∧ front.length = parsed.reusedMessages ∧
    putBack front parsed.request = whole
  /-- The snapshot lists the source of every element, the reused ones first. -/
  snapshot : ∀ snapshot, parsed.snapshot = some snapshot → ∃ items,
    MessageElements P.leaves wire items ∧ snapshot.messages = items.map Prod.fst ∧
      snapshot.messages.take parsed.reusedMessages = old.take parsed.reusedMessages
  nothing : parsed.snapshot = none → parsed.reusedMessages = 0

theorem parse_source {source : Wire} {j : Json} (h : Value P.leaves source j []) :
    P.parse source = .ok j := by
  rw [P.parse_iff]
  exact ⟨[], by rw [h.space_eq]; exact h, rfl⟩

theorem Parsed.sameRequest {whole : Json}
    {parsed : NativeRequestParse} (h : Parsed P wire old whole parsed) :
    SameRequest P wire old parsed whole := by
  cases h with
  | plain => exact ⟨⟨[], by simp, rfl, putBack_nil whole⟩, by simp, fun _ => rfl⟩
  | @split request sources reused bytes hle hsplit =>
    obtain ⟨before, after, items, back, rfl, rfl, hafter, hfront, rfl, helements⟩ :=
      hsplit.exists_members
    have hlength : items.length = reused := by
      have := congrArg List.length hfront
      rwa [List.length_map, List.length_take, Nat.min_eq_left hle] at this
    refine ⟨⟨items.map Prod.snd, ?_, by rw [List.length_map, hlength], ?_⟩, ?_, by simp⟩
    · dsimp only
      rw [← hfront, List.forall₂_map_left_iff, List.forall₂_map_right_iff, List.forall₂_same]
      intro item hitem
      exact parse_source (helements.source_value item (List.mem_append_left _ hitem))
    · rw [putBack_ofMembers hafter, List.map_append]
    · intro snapshot held
      cases held
      refine ⟨items ++ back, helements, rfl, ?_⟩
      dsimp only
      rw [← hfront, List.map_append, ← hlength]
      simp

/-- Parsing without the messages of a snapshot, against parsing the whole wire. -/
def SameParse (P : JsonParsers) (wire : Wire) (old : List Wire) :
    Except String NativeRequestParse → Except String Json → Prop
  | .ok parsed, .ok whole => SameRequest P wire old parsed whole
  | .error _, .error _ => True
  | _, _ => False

/-- For every wire and every snapshot that a chain of requests returned, parsing
without its messages throws where parsing the whole wire does, and otherwise its
request with the reused messages put back is the whole one. -/
theorem prefixParsing (P : JsonParsers) (previous : Option NativeMessageSnapshot)
    (hprevious : ∀ snapshot, previous = some snapshot → Returned P snapshot) (wire : Wire)
    (allowFast : Bool) :
    SameParse P wire ((previous.map NativeMessageSnapshot.messages).getD [])
      (parseNativeRequestPrefix P wire previous allowFast)
      (parseNativeRequestJson P wire allowFast) := by
  have hold : ∀ source ∈ (previous.map NativeMessageSnapshot.messages).getD [],
      ∃ j, Value P.leaves source j [] := by
    cases previous with
    | none => simp
    | some snapshot => exact (hprevious snapshot rfl).sources_value
  rw [parseNativeRequestJson_eq]
  rcases parseNativeRequestPrefix_spec wire previous allowFast hold with
    ⟨e, hwhole, hparsed⟩ | ⟨whole, parsed, hwhole, hparsed, hcase⟩
  · rw [hwhole, hparsed]
    trivial
  · rw [hwhole, hparsed]
    exact hcase.sameRequest

/-! ## A request and the one after it -/

theorem document_unique {L : Leaves} {j j' : Json} (h : Document L wire j)
    (h' : Document L wire j') : j = j' := by
  obtain ⟨rest, hvalue, -⟩ := h
  obtain ⟨rest', hvalue', -⟩ := h'
  exact (hvalue.unique hvalue').1

open Classical in
/-- The parser of a grammar. -/
noncomputable def JsonParsers.ofLeaves (L : Leaves) : JsonParsers where
  leaves := L
  parse wire := if h : ∃ j, Document L wire j then .ok h.choose else .error "parse error"
  yyjsonRead _ := none
  parse_iff wire j := by
    constructor
    · intro h
      split at h
      next hex =>
        cases h
        exact hex.choose_spec
      next => cases h
    · intro h
      have hex : ∃ j, Document L wire j := ⟨j, h⟩
      rw [dif_pos hex, document_unique hex.choose_spec h]
  yyjson_subset := by
    intro wire doc j h
    cases h

/-- Strings of printable ASCII without escapes, and no other tokens. -/
def plainLeaves : Leaves where
  scalar _ := none
  string body :=
    if stringBody body ∧ ∀ b ∈ body, 0x20 ≤ b ∧ b < 0x7F ∧ b ≠ backslash then
      some (String.ofList (body.map fun b => Char.ofNat b.toNat))
    else none
  scalar_token _ _ h := by cases h
  string_body body s h := by
    split at h
    next hbody => exact hbody.1
    next => cases h

/-- `messages`. -/
def messagesKey : Wire := [0x6D, 0x65, 0x73, 0x73, 0x61, 0x67, 0x65, 0x73]

/-- `"a"]}`. -/
def oneArray : Wire := [quote, 0x61, quote, closeBracket, closeBrace]

/-- `"messages":["a"]}`. -/
def oneMember : Wire := quote :: (messagesKey ++ quote :: colon :: openBracket :: oneArray)

/-- The document whose messages are one string. -/
def oneMessage : Wire := openBrace :: oneMember

theorem key_leaf : plainLeaves.string messagesKey = some "messages" := by decide +kernel

theorem a_leaf : plainLeaves.string [0x61] = some "a" := by decide +kernel

theorem oneMessage_document :
    Document plainLeaves oneMessage (.ofMembers [("messages", .array [.string "a"])]) := by
  have hitem : Items plainLeaves oneArray [([quote, 0x61, quote], .string "a")] [closeBrace] :=
    .last rfl (.string a_leaf) rfl
  exact ⟨[], .object (.last rfl key_leaf rfl (.array hitem) rfl), rfl⟩

/-- The parsers of the witness. -/
noncomputable def plainParsers : JsonParsers := .ofLeaves plainLeaves

theorem key_parse :
    plainParsers.parse (quote :: (messagesKey ++ [quote])) = .ok (.string "messages") := by
  rw [JsonParsers.parse_iff]
  exact ⟨[], .string key_leaf, rfl⟩

theorem scanElements_oneArray : scanElements [] oneArray =
    some ([⟨oneArray, 3⟩], 0, 0, [closeBracket, closeBrace]) := by
  have hvalue : scanValue 0 oneArray = some [closeBracket, closeBrace] := by
    rw [scanValue]
    rfl
  have helement : scanElement [] (space oneArray) = some ([closeBracket, closeBrace], none) := by
    change (scanValue 0 oneArray).map (fun after => (after, none)) = _
    rw [hvalue]
    rfl
  rw [scanElements, helement]
  rfl

theorem scanArray_oneArray : scanArray [] (openBracket :: oneArray) =
    some (⟨oneArray, [⟨oneArray, 3⟩], [closeBracket, closeBrace], 0, 0⟩, [closeBrace]) := by
  have htake : take openBracket (openBracket :: oneArray) = some oneArray := rfl
  have hhead : ¬ (space oneArray).head? = some closeBracket := by decide
  rw [scanArray, htake]
  simp only [Option.bind_some, if_neg hhead, scanElements_oneArray]
  rfl

theorem scanFields_oneMember : scanFields plainParsers [] [] none oneMember =
    some (some ⟨oneArray, [⟨oneArray, 3⟩], [closeBracket, closeBrace], 0, 0⟩, []) := by
  have hspace : space oneMember = oneMember := rfl
  have hstring : scanString oneMember = some (colon :: openBracket :: oneArray) := rfl
  have hcolon : take colon (colon :: openBracket :: oneArray) = some (openBracket :: oneArray) := rfl
  have hkey : readKey plainParsers oneMember (colon :: openBracket :: oneArray) =
      some "messages" := by
    have hsource : oneMember.take (oneMember.length - (colon :: openBracket :: oneArray).length) =
        quote :: (messagesKey ++ [quote]) := rfl
    rw [readKey, hsource, key_parse]
  rw [scanFields]
  simp only [hspace, hstring, hkey, hcolon, List.not_mem_nil, if_false, if_true,
    scanArray_oneArray]
  rfl

theorem scan_oneMessage : scan plainParsers [] oneMessage =
    some ⟨oneArray, [⟨oneArray, 3⟩], [closeBracket, closeBrace], 0, 0⟩ := by
  have hopen : take openBrace oneMessage = some oneMember := rfl
  have hmembers : ¬ (take closeBrace oneMember).isSome = true := by decide
  rw [scan, hopen]
  simp only [Option.bind_some, if_neg hmembers, scanFields_oneMember]
  rfl

theorem returned_oneMessage : Returned plainParsers { messages := [[quote, 0x61, quote]] } := by
  have hparse : plainParsers.parse oneMessage =
      .ok (.ofMembers [("messages", .array [.string "a"])]) :=
    (plainParsers.parse_iff _ _).mpr oneMessage_document
  have hprefix : parseNativeRequestPrefix plainParsers oneMessage none true =
      .ok { request := .ofMembers [("messages", .array [.string "a"])]
            snapshot := some { messages := [[quote, 0x61, quote]] } } := by
    simp only [parseNativeRequestPrefix, Option.map_none, Option.getD_none, scan_oneMessage,
      parseNativeRequestJson_eq, hparse]
    rfl
  exact .first hprefix rfl

/-- `{"messages":["a","b"]}`. -/
def twoMessages : Wire :=
  openBrace :: quote :: (messagesKey ++ quote :: colon :: openBracket ::
    [quote, 0x61, quote, comma, quote, 0x62, quote, closeBracket, closeBrace])

theorem prefixParsing_twoMessages :
    SameParse plainParsers twoMessages [[quote, 0x61, quote]]
      (parseNativeRequestPrefix plainParsers twoMessages
        (some { messages := [[quote, 0x61, quote]] }) true)
      (parseNativeRequestJson plainParsers twoMessages true) := by
  have hreturned : ∀ snapshot, some ⟨[[quote, 0x61, quote]], [], 0⟩ = some snapshot →
      Returned plainParsers snapshot := by
    intro snapshot h
    cases h
    exact returned_oneMessage
  exact prefixParsing plainParsers (some ⟨[[quote, 0x61, quote]], [], 0⟩) hreturned twoMessages true

end Qw3.Native
