import Qw3.Native.RequestJson

/-!
# What the boundary scanner finds

The scanner checks brackets, commas and keys as the grammar does, and numbers,
literals and strings only to find where they end.

* `scanValue_sound` — it stops where a derivation with every token allowed ends.
* `scanValue_value` — so where the text begins with a value, it stops at its end.
* `scanElements_spec`, `scanFields_spec` — the elements of the messages array, and
  the members around it.
-/

namespace Qw3.Native

open Json

/-! ## Bytes and tokens -/

theorem take_iff {ch : UInt8} {text rest : Wire} :
    take ch text = some rest ↔ space text = ch :: rest := by
  rw [take]
  cases space text with
  | nil => simp
  | cons b tail =>
    by_cases hb : b = ch
    · simp [hb]
    · simp [hb]

theorem scanString_iff {text rest : Wire} :
    scanString text = some rest ↔
      ∃ body, text = quote :: (body ++ quote :: rest) ∧ stringBody body = true := by
  constructor
  · intro h
    cases text with
    | nil => cases h
    | cons b tail =>
      rw [scanString] at h
      split at h
      next hb =>
        obtain ⟨body, rfl, hbody⟩ := stringTail_spec h
        exact ⟨body, by rw [hb], hbody⟩
      next => cases h
  · rintro ⟨body, rfl, hbody⟩
    rw [scanString, if_pos rfl, stringTail_append hbody]

theorem scanScalar_sound {b : UInt8} {tail rest : Wire} (hq : b ≠ quote) (ho : b ≠ openBracket)
    (hc : b ≠ openBrace) (h : scanScalar (b :: tail) = some rest) :
    ∃ token, b :: tail = token ++ rest ∧ ScalarToken token ∧ Delimited rest := by
  rw [scanScalar] at h
  split at h
  next hlt =>
    cases h
    have hsplit := List.takeWhile_append_dropWhile (p := fun b => !isDelimiter b) (l := b :: tail)
    have hb : isDelimiter b = false := by
      by_contra hb
      rw [List.dropWhile_cons_of_neg (by simpa using hb)] at hlt
      exact lt_irrefl _ hlt
    refine ⟨_, hsplit.symm, ?_, ?_⟩
    · have htoken : (b :: tail).takeWhile (fun b => !isDelimiter b) =
          b :: tail.takeWhile fun b => !isDelimiter b :=
        List.takeWhile_cons_of_pos (by simp [hb])
      refine ⟨⟨b, _, htoken, hb⟩, ?_, ?_⟩
      · intro x hx
        simpa using List.mem_takeWhile_imp hx
      · intro more
        rw [htoken]
        simp [hq, ho, hc]
    · intro c more hmore
      have hhead := List.head?_dropWhile_not (fun b => !isDelimiter b) (b :: tail)
      rw [hmore] at hhead
      simpa using hhead
  next => cases h

/-! ## Values -/

mutual

/-- The scanner stops where a derivation with every token allowed ends. -/
theorem scanValue_sound {depth : ℕ} {text rest : Wire} (h : scanValue depth text = some rest) :
    ∃ j, Value Leaves.lenient (space text) j rest := by
  rw [scanValue] at h
  split at h
  next => cases h
  next b tail htext =>
    have hlt : tail.length < text.length := by
      have hle := space_length_le text
      rw [htext, List.length_cons] at hle
      omega
    rw [htext]
    split at h
    next => cases h
    next =>
      split at h
      next =>
        obtain ⟨body, hbody, hstring⟩ := scanString_iff.mp h
        rw [hbody]
        exact ⟨_, .string (lenient_string hstring)⟩
      next hq =>
        split at h
        next hopen =>
          by_cases hb : b = openBrace
          · subst hb
            simp only [if_true, beq_self_eq_true] at h
            split at h
            next after hclose =>
              cases h
              exact ⟨_, .emptyObject (take_iff.mp hclose)⟩
            next =>
              obtain ⟨members, hmembers⟩ := scanMembers_sound h
              exact ⟨_, .object hmembers⟩
          · obtain rfl : b = openBracket := hopen.resolve_right hb
            have hne : (openBracket == openBrace) = false := by decide
            simp only [hb, if_false, hne] at h
            split at h
            next after hclose =>
              cases h
              exact ⟨_, .emptyArray (take_iff.mp hclose)⟩
            next =>
              obtain ⟨items, hitems⟩ := scanItems_sound h
              exact ⟨_, .array hitems⟩
        next hopen =>
          rw [not_or] at hopen
          obtain ⟨token, htoken, hscalar, hdelim⟩ := scanScalar_sound hq hopen.1 hopen.2 h
          rw [htoken]
          exact ⟨_, .scalar (lenient_scalar hscalar) hdelim⟩
termination_by (text.length, 0)

/-- The loop over the items of an array. -/
theorem scanItems_sound {depth : ℕ} {text rest : Wire}
    (h : scanContainer false depth text = some rest) :
    ∃ items, Items Leaves.lenient text items rest := by
  rw [scanContainer] at h
  split at h
  next => cases h
  next inner hinner =>
    obtain rfl : text = inner := by simpa using hinner
    split at h
    next => cases h
    next mid hmid =>
      obtain ⟨j, hvalue⟩ := scanValue_sound hmid
      obtain ⟨v, hv, -⟩ := hvalue.frame
      rw [hv] at hvalue
      split at h
      next after hclose =>
        cases h
        exact ⟨_, .last hv hvalue (take_iff.mp hclose)⟩
      next =>
        split at h
        next => cases h
        next next' hnext =>
          split at h
          next =>
            obtain ⟨items, hitems⟩ := scanItems_sound h
            exact ⟨_, .next hv hvalue (take_iff.mp hnext) hitems⟩
          next => cases h
termination_by (text.length, 1)

/-- The loop over the members of an object. -/
theorem scanMembers_sound {depth : ℕ} {text rest : Wire}
    (h : scanContainer true depth text = some rest) :
    ∃ members, Members Leaves.lenient text members rest := by
  rw [scanContainer] at h
  split at h
  next => cases h
  next inner hinner =>
    obtain ⟨after, hafter, hcolon⟩ := Option.bind_eq_some_iff.mp (by simpa using hinner)
    have hlt : inner.length < text.length := by
      have h1 := length_of_scanString hafter
      have h2 := length_of_take hcolon
      have h3 := space_length_le text
      omega
    obtain ⟨body, hbody, hstring⟩ := scanString_iff.mp hafter
    split at h
    next => cases h
    next mid hmid =>
      obtain ⟨j, hvalue⟩ := scanValue_sound hmid
      split at h
      next after hclose =>
        cases h
        exact ⟨_, .last hbody (lenient_string hstring) (take_iff.mp hcolon) hvalue
          (take_iff.mp hclose)⟩
      next =>
        split at h
        next => cases h
        next next' hnext =>
          split at h
          next =>
            obtain ⟨members, hmembers⟩ := scanMembers_sound h
            exact ⟨_, .next hbody (lenient_string hstring) (take_iff.mp hcolon) hvalue
              (take_iff.mp hnext) hmembers⟩
          next => cases h
termination_by (text.length, 1)

end

/-! ## Around the messages array -/

section Grammar

variable {L V : Leaves}

/-- An array is its elements. -/
def Elements (L : Leaves) (text : Wire) (items : List (Wire × Json)) (rest : Wire) : Prop :=
  (items = [] ∧ space text = closeBracket :: rest) ∨ Items L text items rest

/-- The members of an object up to the elements of its `messages` array, with the
members before it. -/
inductive Head (L V : Leaves) : Wire → List (String × Json) → Wire → Prop
  | here {text body after inner array : Wire}
      (start : space text = quote :: (body ++ quote :: after))
      (leaf : L.string body = some "messages") (sep : space after = colon :: inner)
      (opens : space inner = openBracket :: array) : Head L V text [] array
  | skip {text body after inner mid text' array : Wire} {key : String} {j : Json}
      {before : List (String × Json)} (start : space text = quote :: (body ++ quote :: after))
      (leaf : L.string body = some key) (sep : space after = colon :: inner)
      (value : Value V (space inner) j mid) (more : space mid = comma :: text')
      (others : Head L V text' before array) : Head L V text ((key, j) :: before) array

/-- The members after a value. -/
def Tail (L : Leaves) (mid : Wire) (members : List (String × Json)) (rest : Wire) : Prop :=
  (members = [] ∧ space mid = closeBrace :: rest) ∨
    ∃ text, space mid = comma :: text ∧ Members L text members rest

/-- Items up to the comma after the last of them. -/
inductive Read (L : Leaves) : Wire → List (Wire × Json) → Wire → Prop
  | none (text : Wire) : Read L text [] text
  | next {text source mid text' text'' : Wire} {j : Json} {items : List (Wire × Json)}
      (start : space text = source ++ mid) (value : Value L (source ++ mid) j mid)
      (more : space mid = comma :: text') (others : Read L text' items text'') :
      Read L text ((source, j) :: items) text''

theorem Read.join {text text' rest : Wire} {items others : List (Wire × Json)}
    (h : Read L text items text') (hothers : Items L text' others rest) :
    Items L text (items ++ others) rest := by
  induction h with
  | none => exact hothers
  | next start value more _ ih => exact .next start value more (ih hothers)

theorem items_of_space {text rest : Wire} {items : List (Wire × Json)}
    (h : Items L (space text) items rest) : Items L text items rest := by
  cases h with
  | last start value close => exact .last (by rw [← start, space_space]) value close
  | next start value more others => exact .next (by rw [← start, space_space]) value more others

/-- A value that opens with a bracket is an array. -/
theorem value_openBracket {text rest : Wire} {j : Json} (h : Value L (openBracket :: text) j rest) :
    ∃ items, j = .array (items.map Prod.snd) ∧ Elements L text items rest := by
  generalize htext : openBracket :: text = whole at h
  cases h with
  | scalar leaf _ => exact absurd htext.symm (scalar_ne leaf _ _).2.1
  | string _ => simp [quote, openBracket] at htext
  | emptyArray close =>
    cases htext
    exact ⟨[], rfl, .inl ⟨rfl, close⟩⟩
  | array inner =>
    cases htext
    exact ⟨_, rfl, .inr inner⟩
  | emptyObject _ => simp [openBrace, openBracket] at htext
  | object _ => simp [openBrace, openBracket] at htext

theorem Elements.value {text rest : Wire} {items : List (Wire × Json)}
    (h : Elements L text items rest) :
    Value L (openBracket :: text) (.array (items.map Prod.snd)) rest := by
  rcases h with ⟨rfl, close⟩ | inner
  · exact .emptyArray close
  · exact .array inner

/-- A value that opens with a brace is an object. -/
theorem value_openBrace {text rest : Wire} {j : Json} (h : Value L (openBrace :: text) j rest) :
    (space text = closeBrace :: rest) ∨ ∃ members, j = .ofMembers members ∧
      Members L text members rest := by
  generalize htext : openBrace :: text = whole at h
  cases h with
  | scalar leaf _ => exact absurd htext.symm (scalar_ne leaf _ _).2.2
  | string _ => simp [quote, openBrace] at htext
  | emptyArray _ => simp [openBrace, openBracket] at htext
  | array _ => simp [openBrace, openBracket] at htext
  | emptyObject close =>
    cases htext
    exact .inl close
  | object inner =>
    cases htext
    exact .inr ⟨_, rfl, inner⟩

/-- The members before the array do not depend on the array. -/
theorem Head.frame {text array : Wire} {before : List (String × Json)}
    (h : Head L V text before array) :
    ∃ v, text = v ++ array ∧ ∀ array', Head L V (v ++ array') before array' := by
  induction h with
  | @here text body after inner array start leaf sep opens =>
    obtain ⟨w, rfl, hw⟩ := frame_byte start
    obtain ⟨c, rfl, hc⟩ := frame_byte sep
    obtain ⟨u, rfl, hu⟩ := frame_byte opens
    refine ⟨w ++ quote :: (body ++ quote :: (c ++ colon :: (u ++ [openBracket]))), by simp, ?_⟩
    intro array'
    have hhead := Head.here (V := V) (hw _) leaf (hc _) (hu array')
    simpa using hhead
  | @skip text body after inner mid text' array key j before start leaf sep value more _ ih =>
    obtain ⟨v, hv, hbegins, hframe⟩ := value.frame
    obtain ⟨w, rfl, hw⟩ := frame_byte start
    obtain ⟨c, rfl, hc⟩ := frame_byte sep
    obtain ⟨i, rfl, hi⟩ := frame_begins hv hbegins
    obtain ⟨u, rfl, hu⟩ := frame_byte more
    obtain ⟨t, rfl, ht⟩ := ih
    refine ⟨w ++ quote :: (body ++ quote :: (c ++ colon :: (i ++ (v ++ (u ++ comma :: t))))),
      by simp, ?_⟩
    intro array'
    have hhead := Head.skip (hw _) leaf (hc _)
      ((hi (u ++ comma :: (t ++ array'))).symm ▸ hframe _ (delimited_of_space (hu _) rfl))
      (hu (t ++ array')) (ht array')
    simpa using hhead

/-- An object whose members are found with every token allowed: its members are
those before the array, the array, and those after it. -/
theorem Head.split {text array : Wire} {before : List (String × Json)}
    (h : Head L Leaves.lenient text before array) {members : List (String × Json)} {rest : Wire}
    (hm : Members L text members rest) :
    ∃ before' j mid after, members = before' ++ ("messages", j) :: after ∧
      Head L L text before' array ∧ Value L (openBracket :: array) j mid ∧
      Tail L mid after rest := by
  induction h generalizing members with
  | here start leaf sep opens =>
    cases hm with
    | last start' leaf' sep' value close =>
      obtain ⟨rfl, rfl, rfl⟩ := member_unique start leaf sep start' leaf' sep'
      exact ⟨[], _, _, [], rfl, .here start leaf sep opens, opens ▸ value, .inl ⟨rfl, close⟩⟩
    | next start' leaf' sep' value more others =>
      obtain ⟨rfl, rfl, rfl⟩ := member_unique start leaf sep start' leaf' sep'
      exact ⟨[], _, _, _, rfl, .here start leaf sep opens, opens ▸ value,
        .inr ⟨_, more, others⟩⟩
  | skip start leaf sep value more _ ih =>
    cases hm with
    | last start' leaf' sep' value' close =>
      obtain ⟨rfl, rfl, rfl⟩ := member_unique start leaf sep start' leaf' sep'
      obtain rfl := value'.lenient_unique value
      rw [close] at more
      simp [closeBrace, comma] at more
    | next start' leaf' sep' value' more' others =>
      obtain ⟨rfl, rfl, rfl⟩ := member_unique start leaf sep start' leaf' sep'
      obtain rfl := value'.lenient_unique value
      rw [more'] at more
      obtain rfl := (List.cons.inj more).2
      obtain ⟨before', j, mid, after, rfl, hhead, harray, htail⟩ := ih others
      exact ⟨_ :: before', j, mid, after, rfl, .skip start leaf sep value' more' hhead, harray,
        htail⟩

theorem Head.join {text array mid rest : Wire} {before after : List (String × Json)} {j : Json}
    (h : Head L L text before array) (hvalue : Value L (openBracket :: array) j mid)
    (htail : Tail L mid after rest) :
    Members L text (before ++ ("messages", j) :: after) rest := by
  induction h with
  | here start leaf sep opens =>
    rcases htail with ⟨rfl, close⟩ | ⟨text', more, others⟩
    · exact .last start leaf sep (opens ▸ hvalue) close
    · exact .next start leaf sep (opens ▸ hvalue) more others
  | skip start leaf sep value more _ ih => exact .next start leaf sep value more (ih hvalue)

end Grammar

/-! ## The elements -/

theorem space_of_head {text : Wire} {b : UInt8} (h : (space text).head? = some b) :
    ∃ rest, space text = b :: rest := by
  cases hs : space text with
  | nil => simp [hs] at h
  | cons c rest =>
    rw [hs, List.head?_cons, Option.some.injEq] at h
    exact ⟨rest, by rw [h]⟩

theorem source_of_append {start source mid : Wire} (h : start = source ++ mid) :
    Span.source ⟨start, start.length - mid.length⟩ = source := by
  subst h
  simp [Span.source]

/-- Without old messages every element is scanned. -/
theorem scanElements_nil {text stop : Wire} {spans : List Span} {reused bytes : ℕ}
    (h : scanElements [] text = some (spans, reused, bytes, stop)) :
    reused = 0 ∧ ∃ items rest, Items Leaves.lenient text items rest ∧
      stop = closeBracket :: rest ∧ spans.map Span.source = items.map Prod.fst ∧
      ∃ span, spans.head? = some span ∧ span.start = space text := by
  rw [scanElements] at h
  dsimp only [scanElement] at h
  split at h
  next => cases h
  next after older hscan =>
    obtain ⟨after', hvalue, heq⟩ := Option.map_eq_some_iff.mp hscan
    cases heq
    obtain ⟨j, hj⟩ := scanValue_sound hvalue
    rw [space_space] at hj
    obtain ⟨source, hsource, -⟩ := hj.frame
    rw [hsource] at hj
    simp only [Option.isSome_none, Bool.false_eq_true, if_false] at h
    split at h
    next hclose =>
      obtain ⟨rest, hrest⟩ := space_of_head hclose
      cases h
      refine ⟨rfl, [(source, j)], rest, .last hsource hj hrest, hrest, ?_, _, rfl, rfl⟩
      simp [source_of_append hsource]
    next =>
      split at h
      next => cases h
      next next' hnext =>
        split at h
        next hlt =>
          obtain ⟨⟨spans', count, bytes', stop'⟩, hmore, heq⟩ := Option.map_eq_some_iff.mp h
          cases heq
          obtain ⟨rfl, items, rest, hitems, hstop, hsources, -⟩ := scanElements_nil hmore
          have hcomma := take_iff.mp hnext
          rw [space_space] at hcomma
          refine ⟨rfl, (source, j) :: items, rest, .next hsource hj hcomma hitems, hstop, ?_, _,
            rfl, rfl⟩
          simp [source_of_append hsource, hsources]
        next => cases h
termination_by text.length

/-- What the loop found of an array whose first elements are old messages: all
its elements, or those up to the first that is not, and the others with every
token allowed. -/
def Found (L : Leaves) (old : List Wire) (b : Boundaries) (rest : Wire) : Prop :=
  b.reused ≤ old.length ∧ ∃ items, items.map Prod.fst = old.take b.reused ∧
    ((b.spans.length = b.reused ∧ Items L b.arrayBegin items rest ∧
        b.arrayEnd = closeBracket :: rest) ∨
      ∃ text others span, Read L b.arrayBegin items text ∧ b.spans[b.reused]? = some span ∧
        span.start = space text ∧ Items Leaves.lenient text others rest ∧
        (b.spans.drop b.reused).map Span.source = others.map Prod.fst)

/-- An old message that is found again, and is followed by what ends it. -/
theorem reused_value {L : Leaves} {source start : Wire} {j : Json} (hvalue : Value L source j [])
    (hfound : source.isPrefixOf start = true)
    (hd : Delimited (start.drop source.length)) :
    start = source ++ start.drop source.length ∧
      Value L (source ++ start.drop source.length) j (start.drop source.length) := by
  obtain ⟨mid, rfl⟩ := List.isPrefixOf_iff_prefix.mp hfound
  rw [List.drop_left] at hd ⊢
  obtain ⟨v, hv, -, hframe⟩ := hvalue.frame
  rw [List.append_nil] at hv
  subst hv
  exact ⟨rfl, hframe mid hd⟩

/-- The step lemma of the loop: the first element is an old message, or the loop
goes on as it does without any. -/
theorem scanElement_cases {old : List Wire} {start after : Wire} {older : Option (List Wire)}
    (h : scanElement old start = some (after, older)) :
    (∃ source rest, old = source :: rest ∧ source.isPrefixOf start = true ∧
      after = start.drop source.length ∧ older = some rest) ∨
      scanElement [] start = some (after, older) := by
  cases old with
  | nil => exact .inr h
  | cons source rest =>
    rw [scanElement] at h
    split at h
    next hfound =>
      cases h
      exact .inl ⟨source, rest, rfl, hfound, rfl, rfl⟩
    next => exact .inr h

theorem scanElements_spec {L : Leaves} {old : List Wire} {text stop : Wire} {spans : List Span}
    {reused bytes : ℕ} (hold : ∀ source ∈ old, ∃ j, Value L source j [])
    (h : scanElements old text = some (spans, reused, bytes, stop)) :
    ∃ rest, stop = closeBracket :: rest ∧ Found L old ⟨text, spans, stop, reused, bytes⟩ rest := by
  by_cases hnil : scanElement old (space text) = scanElement [] (space text)
  · -- From here on nothing is reused.
    have hsame : scanElements [] text = some (spans, reused, bytes, stop) := by
      rw [scanElements] at h ⊢
      rw [← hnil]
      exact h
    obtain ⟨rfl, items, rest, hitems, hstop, hsources, span, hspan, hstart⟩ :=
      scanElements_nil hsame
    refine ⟨rest, hstop, Nat.zero_le _, [], rfl, .inr ⟨text, items, span, .none text, ?_, hstart,
      hitems, by simpa using hsources⟩⟩
    simpa [List.head?_eq_getElem?] using hspan
  · rw [scanElements] at h
    dsimp only at h
    split at h
    next => cases h
    next after older hscan =>
      rcases scanElement_cases hscan with ⟨source, older', rfl, hfound, rfl, rfl⟩ | hother
      · obtain ⟨j, hj⟩ := hold source List.mem_cons_self
        have hold' : ∀ s ∈ older', ∃ j, Value L s j [] :=
          fun s hs => hold s (List.mem_cons_of_mem _ hs)
        simp only [Option.isSome_some, if_true, Option.getD_some] at h
        split at h
        next hclose =>
          obtain ⟨rest, hrest⟩ := space_of_head hclose
          cases h
          obtain ⟨hstart, hvalue⟩ := reused_value hj hfound (delimited_of_space hrest (by decide))
          exact ⟨rest, hrest, by simp, [(source, j)], by simp,
            .inl ⟨rfl, .last hstart hvalue hrest, hrest⟩⟩
        next =>
          split at h
          next => cases h
          next next' hnext =>
            split at h
            next hlt =>
              obtain ⟨⟨spans', count, bytes', stop'⟩, hmore, heq⟩ := Option.map_eq_some_iff.mp h
              cases heq
              have hcomma := take_iff.mp hnext
              rw [space_space] at hcomma
              obtain ⟨hstart, hvalue⟩ :=
                reused_value hj hfound (delimited_of_space hcomma (by decide))
              obtain ⟨rest, hstop, hle, items, hitems, hcase⟩ := scanElements_spec hold' hmore
              refine ⟨rest, hstop, ?_, (source, j) :: items, ?_, ?_⟩
              · rw [List.length_cons, Nat.add_comm]
                exact Nat.succ_le_succ hle
              · rw [List.map_cons, hitems, Nat.add_comm, List.take_succ_cons]
              · rcases hcase with ⟨hlength, helements, hend⟩ |
                  ⟨text', others, span, hread, hspan, hspanStart, hothers, hsources⟩
                · refine .inl ⟨?_, .next hstart hvalue hcomma helements, hend⟩
                  rw [List.length_cons, Nat.add_comm]
                  exact congrArg (1 + ·) hlength
                · refine .inr ⟨text', others, span, .next hstart hvalue hcomma hread, ?_, hspanStart,
                    hothers, ?_⟩
                  · rw [Nat.add_comm, List.getElem?_cons_succ]
                    exact hspan
                  · rw [Nat.add_comm, List.drop_succ_cons]
                    exact hsources
            next => cases h
      · exact absurd (hscan.trans hother.symm) hnil
termination_by text.length

/-! ## The loops without their guards -/

theorem length_of_scanValue {depth : ℕ} {text rest : Wire} (h : scanValue depth text = some rest) :
    rest.length < text.length := by
  obtain ⟨j, hvalue⟩ := scanValue_sound h
  obtain ⟨v, hv, ⟨b, tail, rfl, -⟩, -⟩ := hvalue.frame
  have hle := space_length_le text
  rw [hv, List.length_append, List.length_cons] at hle
  omega

/-- The loop of `value`, as it stands in the source. -/
theorem scanContainer_eq (object : Bool) (depth : ℕ) (text : Wire) :
    scanContainer object depth text =
      (if object then (scanString (space text)).bind (take colon) else some text).bind fun inner =>
        (scanValue (depth + 1) inner).bind fun mid =>
          match take (if object then closeBrace else closeBracket) mid with
          | some after => some after
          | none => (take comma mid).bind (scanContainer object depth) := by
  rw [scanContainer]
  split
  next hinner => rw [hinner]; rfl
  next inner hinner =>
    have hle : inner.length ≤ text.length := by
      cases object with
      | false =>
        obtain rfl : text = inner := by simpa using hinner
        exact le_rfl
      | true =>
        obtain ⟨after, hafter, hcolon⟩ := Option.bind_eq_some_iff.mp (by simpa using hinner)
        have h1 := length_of_scanString hafter
        have h2 := length_of_take hcolon
        have h3 := space_length_le text
        omega
    rw [hinner, Option.bind_some]
    split
    next hnone => rw [hnone]; rfl
    next mid hmid =>
      rw [hmid, Option.bind_some]
      cases take (if object = true then closeBrace else closeBracket) mid with
      | some after => rfl
      | none =>
        dsimp only
        cases hcomma : take comma mid with
        | none => rfl
        | some next' =>
          have h1 := length_of_scanValue hmid
          have h2 := length_of_take hcomma
          exact if_pos (by omega)

theorem length_of_scanElement {old : List Wire} {start after : Wire} {older : Option (List Wire)}
    (h : scanElement old start = some (after, older)) : after.length ≤ start.length := by
  rcases scanElement_cases h with ⟨source, rest, -, -, rfl, -⟩ | hscan
  · rw [List.length_drop]
    exact Nat.sub_le _ _
  · obtain ⟨after', hvalue, heq⟩ := Option.map_eq_some_iff.mp hscan
    cases heq
    exact (length_of_scanValue hvalue).le

/-- The loop over the elements, as it stands in the source. -/
theorem scanElements_eq (old : List Wire) (text : Wire) :
    scanElements old text =
      (scanElement old (space text)).bind fun (after, older) =>
        let span : Span := ⟨space text, (space text).length - after.length⟩
        let reused := if older.isSome then 1 else 0
        let reusedBytes := if older.isSome then span.length else 0
        if (space after).head? = some closeBracket then
          some ([span], reused, reusedBytes, space after)
        else
          (take comma (space after)).bind fun next =>
            (scanElements (older.getD []) next).map fun (spans, count, bytes, stop) =>
              (span :: spans, reused + count, reusedBytes + bytes, stop) := by
  rw [scanElements]
  dsimp only
  split
  next hnone => rw [hnone]; rfl
  next after older hscan =>
    rw [hscan, Option.bind_some]
    dsimp only
    split
    next => rfl
    next =>
      split
      next hnone => rw [hnone]; rfl
      next next' hcomma =>
        have h1 := length_of_scanElement hscan
        have h2 := space_length_le text
        have h3 := space_length_le after
        have h4 := length_of_take hcomma
        rw [hcomma, Option.bind_some, if_pos (by omega)]

theorem length_of_scanElements {old : List Wire} {text stop : Wire} {spans : List Span}
    {reused bytes : ℕ} (h : scanElements old text = some (spans, reused, bytes, stop)) :
    stop.length ≤ text.length := by
  rw [scanElements_eq] at h
  obtain ⟨⟨after, older⟩, hscan, h⟩ := Option.bind_eq_some_iff.mp h
  have h1 := length_of_scanElement hscan
  have h2 := space_length_le text
  have h3 := space_length_le after
  dsimp only at h
  split at h
  next =>
    cases h
    omega
  next =>
    obtain ⟨next', hcomma, h⟩ := Option.bind_eq_some_iff.mp h
    have h4 := length_of_take hcomma
    have hlt : next'.length < text.length := by omega
    obtain ⟨⟨spans', count, bytes', stop'⟩, hmore, heq⟩ := Option.map_eq_some_iff.mp h
    cases heq
    have h5 := length_of_scanElements hmore
    dsimp only
    omega
termination_by text.length

theorem length_of_scanArray {old : List Wire} {text rest : Wire} {b : Boundaries}
    (h : scanArray old text = some (b, rest)) : rest.length < text.length := by
  obtain ⟨arrayBegin, hbegin, h⟩ := Option.bind_eq_some_iff.mp h
  obtain ⟨⟨spans, reused, bytes, stop⟩, hscanned, h⟩ := Option.bind_eq_some_iff.mp h
  obtain ⟨rest', hclose, heq⟩ := Option.map_eq_some_iff.mp h
  cases heq
  have h1 := length_of_take hbegin
  have h2 := length_of_take hclose
  have h3 := space_length_le arrayBegin
  split at hscanned
  next =>
    cases hscanned
    omega
  next =>
    have h4 := length_of_scanElements hscanned
    omega

variable {P : JsonParsers}
/-- The loop over the members, as it stands in the source. -/
theorem scanFields_eq (old : List Wire) (keys : List String) (found : Option Boundaries)
    (text : Wire) :
    scanFields P old keys found text =
      (scanString (space text)).bind fun after =>
        (readKey P (space text) after).bind fun key =>
          if key ∈ keys then none
          else
            (take colon after).bind fun inner =>
              (if key = "messages" then
                (scanArray old inner).map fun (boundaries, rest) => (some boundaries, rest)
              else (scanValue 0 inner).map fun rest => (found, rest)).bind fun (found, rest) =>
                match take closeBrace rest with
                | some final => some (found, final)
                | none => (take comma rest).bind (scanFields P old (key :: keys) found) := by
  rw [scanFields]
  dsimp only
  split
  next hnone => rw [hnone]; rfl
  next after hstring =>
    rw [hstring, Option.bind_some]
    split
    next hnone => rw [hnone]; rfl
    next key hkey =>
      rw [hkey, Option.bind_some]
      split
      next => rfl
      next =>
        split
        next hnone => rw [hnone]; rfl
        next inner hcolon =>
          rw [hcolon, Option.bind_some]
          split
          next hnone => rw [hnone]; rfl
          next found' rest hscanned =>
            rw [hscanned, Option.bind_some]
            dsimp only
            cases take closeBrace rest with
            | some final => rfl
            | none =>
              dsimp only
              cases hcomma : take comma rest with
              | none => rfl
              | some next' =>
                have hlt : rest.length < inner.length := by
                  split at hscanned
                  next =>
                    obtain ⟨⟨b, rest'⟩, hb, heq⟩ := Option.map_eq_some_iff.mp hscanned
                    cases heq
                    exact length_of_scanArray hb
                  next =>
                    obtain ⟨rest', hrest, heq⟩ := Option.map_eq_some_iff.mp hscanned
                    cases heq
                    exact length_of_scanValue hrest
                have h1 := length_of_scanString hstring
                have h2 := length_of_take hcolon
                have h3 := length_of_take hcomma
                have h4 := space_length_le text
                exact if_pos (by omega)

end Qw3.Native
