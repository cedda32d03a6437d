import Mathlib.Data.List.TakeWhile
import Mathlib.Tactic
import Qw3.Json.Value

/-!
# The grammar of JSON

RFC 8259 over bytes.  A derivation reads a value off the front of a text and
leaves the rest of it.

* `Leaves` — which tokens are numbers and literals, and which bodies are strings,
  with what they stand for.
* `Value`, `Items`, `Members` — the grammar; the items of an array keep their
  source texts.
* `Value.unique` — a text has one derivation.
* `Value.local` — a derivation depends on the text that it reads only.
* `Leaves.lenient` — every token that the delimiters allow.
-/

namespace Qw3.Json

/-- A text, by its bytes. -/
abbrev Wire := List UInt8

abbrev quote : UInt8 := 0x22
abbrev backslash : UInt8 := 0x5C
abbrev comma : UInt8 := 0x2C
abbrev colon : UInt8 := 0x3A
abbrev openBracket : UInt8 := 0x5B
abbrev closeBracket : UInt8 := 0x5D
abbrev openBrace : UInt8 := 0x7B
abbrev closeBrace : UInt8 := 0x7D

def isSpace (b : UInt8) : Bool := b == 0x20 || b == 0x0A || b == 0x0D || b == 0x09

/-- What ends a number or a literal. -/
def isDelimiter (b : UInt8) : Bool :=
  b == comma || b == closeBracket || b == closeBrace || isSpace b

/-- The text after its leading spaces. -/
def space (text : Wire) : Wire := text.dropWhile isSpace

/-- No number or literal goes on into the text. -/
def Delimited (text : Wire) : Prop := ∀ b rest, text = b :: rest → isDelimiter b = true

/-- A text that begins with no space and no delimiter. -/
def Begins (text : Wire) : Prop := ∃ b rest, text = b :: rest ∧ isDelimiter b = false

/-- The text of a number or a literal. -/
structure ScalarToken (token : Wire) : Prop where
  begins : Begins token
  inside : ∀ b ∈ token, isDelimiter b = false
  scalar : ∀ rest, token ≠ quote :: rest ∧ token ≠ openBracket :: rest ∧ token ≠ openBrace :: rest

/-- What may stand between two quotes: a backslash takes the byte after it. -/
def stringBody : Wire → Bool
  | [] => true
  | [b] => b ≠ quote && b ≠ backslash
  | b :: c :: rest =>
      if b = quote then false
      else if b = backslash then stringBody rest
      else stringBody (c :: rest)

/-- The numbers and literals, and the strings, with their values. -/
structure Leaves where
  scalar : Wire → Option Json
  string : Wire → Option String
  scalar_token : ∀ token j, scalar token = some j → ScalarToken token
  string_body : ∀ body s, string body = some s → stringBody body = true

section Grammar

variable (L : Leaves)

mutual

/-- A value at the front of a text. -/
inductive Value : Wire → Json → Wire → Prop
  | scalar {token rest : Wire} {j : Json} (leaf : L.scalar token = some j)
      (delimited : Delimited rest) : Value (token ++ rest) j rest
  | string {body rest : Wire} {s : String} (leaf : L.string body = some s) :
      Value (quote :: (body ++ quote :: rest)) (.string s) rest
  | emptyArray {text rest : Wire} (close : space text = closeBracket :: rest) :
      Value (openBracket :: text) (.array []) rest
  | array {text rest : Wire} {items : List (Wire × Json)} (inner : Items text items rest) :
      Value (openBracket :: text) (.array (items.map Prod.snd)) rest
  | emptyObject {text rest : Wire} (close : space text = closeBrace :: rest) :
      Value (openBrace :: text) (.object []) rest
  | object {text rest : Wire} {members : List (String × Json)}
      (inner : Members text members rest) : Value (openBrace :: text) (.ofMembers members) rest

/-- The items of an array, with their sources, up to the bracket. -/
inductive Items : Wire → List (Wire × Json) → Wire → Prop
  | last {text source mid rest : Wire} {j : Json} (start : space text = source ++ mid)
      (value : Value (source ++ mid) j mid) (close : space mid = closeBracket :: rest) :
      Items text [(source, j)] rest
  | next {text source mid text' rest : Wire} {j : Json} {items : List (Wire × Json)}
      (start : space text = source ++ mid) (value : Value (source ++ mid) j mid)
      (more : space mid = comma :: text') (others : Items text' items rest) :
      Items text ((source, j) :: items) rest

/-- The members of an object, up to the brace. -/
inductive Members : Wire → List (String × Json) → Wire → Prop
  | last {text body after inner mid rest : Wire} {key : String} {j : Json}
      (start : space text = quote :: (body ++ quote :: after)) (leaf : L.string body = some key)
      (sep : space after = colon :: inner) (value : Value (space inner) j mid)
      (close : space mid = closeBrace :: rest) : Members text [(key, j)] rest
  | next {text body after inner mid text' rest : Wire} {key : String} {j : Json}
      {members : List (String × Json)}
      (start : space text = quote :: (body ++ quote :: after)) (leaf : L.string body = some key)
      (sep : space after = colon :: inner) (value : Value (space inner) j mid)
      (more : space mid = comma :: text') (others : Members text' members rest) :
      Members text ((key, j) :: members) rest

end

/-- A text that is one value. -/
def Document (text : Wire) (j : Json) : Prop := ∃ rest, Value L (space text) j rest ∧ space rest = []

end Grammar

/-! ## Spaces -/

theorem isDelimiter_of_isSpace {b : UInt8} (h : isSpace b = true) : isDelimiter b = true := by
  simp [isDelimiter, h]

theorem isSpace_of_isDelimiter {b : UInt8} (h : isDelimiter b = false) : isSpace b = false := by
  simp only [isDelimiter, Bool.or_eq_false_iff] at h
  exact h.2

/-- A text is its leading spaces and what follows them. -/
theorem exists_space (text : Wire) :
    ∃ w, text = w ++ space text ∧ ∀ more b rest, more = b :: rest → isSpace b = false →
      space (w ++ more) = more := by
  refine ⟨text.takeWhile isSpace, (List.takeWhile_append_dropWhile).symm, ?_⟩
  intro more b rest hmore hb
  have hw : ∀ x ∈ text.takeWhile isSpace, isSpace x = true := fun x hx =>
    List.mem_takeWhile_imp hx
  rw [space, List.dropWhile_append_of_pos hw, hmore, List.dropWhile_cons_of_neg (by simp [hb])]

theorem space_length_le (text : Wire) : (space text).length ≤ text.length :=
  List.length_dropWhile_le _ _

variable {text rest : Wire}

/-- After the spaces there is no space. -/
theorem isSpace_of_space {b : UInt8} (h : space text = b :: rest) :
    isSpace b = false := by
  have hhead := List.head?_dropWhile_not isSpace text
  rw [space] at h
  rw [h] at hhead
  exact hhead

theorem space_of_begins {text : Wire} (h : Begins text) : space text = text := by
  obtain ⟨b, rest, rfl, hb⟩ := h
  rw [space, List.dropWhile_cons_of_neg (by simp [isSpace_of_isDelimiter hb])]

theorem space_space (text : Wire) : space (space text) = space text := by
  cases h : space text with
  | nil => rfl
  | cons b rest => rw [space, List.dropWhile_cons_of_neg (by simp [isSpace_of_space h])]

theorem delimited_nil : Delimited [] := by
  intro b rest h
  cases h

theorem delimited_cons {b : UInt8} {rest : Wire} (h : isDelimiter b = true) :
    Delimited (b :: rest) := by
  intro c rest' heq
  cases heq
  exact h

/-- A text whose first byte after the spaces is a delimiter. -/
theorem delimited_of_space {b : UInt8} (h : space text = b :: rest)
    (hb : isDelimiter b = true) : Delimited text := by
  intro c rest' heq
  subst heq
  by_cases hc : isSpace c = true
  · exact isDelimiter_of_isSpace hc
  · rw [space, List.dropWhile_cons_of_neg hc] at h
    cases h
    exact hb

/-! ## Strings -/

/-- The text after the quote that ends a string, the first that no backslash
takes. -/
def stringTail : Wire → Option Wire
  | [] => none
  | [b] => if b = quote then some [] else none
  | b :: c :: rest =>
      if b = quote then some (c :: rest)
      else if b = backslash then stringTail rest
      else stringTail (c :: rest)

theorem stringTail_quote (rest : Wire) : stringTail (quote :: rest) = some rest := by
  cases rest with
  | nil => rfl
  | cons b rest => rfl

theorem stringTail_append {body : Wire} (h : stringBody body = true) (rest : Wire) :
    stringTail (body ++ quote :: rest) = some rest := by
  fun_induction stringBody body with
  | case1 => exact stringTail_quote rest
  | case2 b =>
    simp only [decide_not, Bool.and_eq_true, Bool.not_eq_true', decide_eq_false_iff_not] at h
    rw [List.cons_append, List.nil_append, stringTail, if_neg h.1, if_neg h.2, stringTail_quote]
  | case3 => cases h
  | case4 c body hq ih =>
    rw [List.cons_append, List.cons_append, stringTail, if_neg hq, if_pos rfl, ih h]
  | case5 b c body hq hb ih =>
    rw [List.cons_append, List.cons_append, stringTail, if_neg hq, if_neg hb]
    exact ih h

theorem stringTail_spec (h : stringTail text = some rest) :
    ∃ body, text = body ++ quote :: rest ∧ stringBody body = true := by
  fun_induction stringTail text with
  | case1 => cases h
  | case2 =>
    cases h
    exact ⟨[], rfl, rfl⟩
  | case3 => cases h
  | case4 c text =>
    cases h
    exact ⟨[], rfl, rfl⟩
  | case5 c text hq ih =>
    obtain ⟨body, rfl, hbody⟩ := ih h
    exact ⟨backslash :: c :: body, rfl, by rw [stringBody, if_neg hq, if_pos rfl, hbody]⟩
  | case6 b c text hq hb ih =>
    obtain ⟨body, htext, hbody⟩ := ih h
    refine ⟨b :: body, by rw [htext]; rfl, ?_⟩
    cases body with
    | nil => simp [stringBody, hq, hb]
    | cons d body => rw [stringBody, if_neg hq, if_neg hb, hbody]

/-- A string ends in one place. -/
theorem stringBody_unique {u v s t : Wire} (hu : stringBody u = true) (hv : stringBody v = true)
    (h : u ++ quote :: s = v ++ quote :: t) : u = v ∧ s = t := by
  have hst : s = t := by
    have := stringTail_append hu s
    rw [h, stringTail_append hv t] at this
    exact (Option.some.inj this).symm
  subst hst
  exact ⟨List.append_cancel_right h, rfl⟩

/-- A token of bytes that end nothing goes up to the first delimiter. -/
theorem token_unique {u v s t : Wire} (hu : ∀ b ∈ u, isDelimiter b = false)
    (hv : ∀ b ∈ v, isDelimiter b = false) (hs : Delimited s) (ht : Delimited t)
    (h : u ++ s = v ++ t) : u = v ∧ s = t := by
  have stop : ∀ r, Delimited r → r.takeWhile (fun b => !isDelimiter b) = [] := by
    intro r hr
    cases r with
    | nil => rfl
    | cons b rest => simp [hr b rest rfl]
  have huv : u = v := by
    have := congrArg (List.takeWhile fun b => !isDelimiter b) h
    rwa [List.takeWhile_append_of_pos (by simpa using hu),
      List.takeWhile_append_of_pos (by simpa using hv), stop s hs, stop t ht, List.append_nil,
      List.append_nil] at this
  subst huv
  exact ⟨rfl, List.append_cancel_left h⟩

/-! ## What a derivation reads -/

/-- The spaces before a byte, whatever comes after it. -/
theorem frame_byte {b : UInt8} (h : space text = b :: rest) :
    ∃ w, text = w ++ b :: rest ∧ ∀ more, space (w ++ b :: more) = b :: more := by
  obtain ⟨w, htext, hspace⟩ := exists_space text
  refine ⟨w, by rw [← h]; exact htext, ?_⟩
  intro more
  exact hspace (b :: more) b more rfl (isSpace_of_space h)

/-- The spaces before a text that begins with no space. -/
theorem frame_begins {text source mid : Wire} (h : space text = source ++ mid)
    (hb : Begins source) :
    ∃ w, text = w ++ (source ++ mid) ∧ ∀ more, space (w ++ (source ++ more)) = source ++ more := by
  obtain ⟨w, htext, hspace⟩ := exists_space text
  obtain ⟨b, tail, rfl, hdelim⟩ := hb
  refine ⟨w, by rw [← h]; exact htext, ?_⟩
  intro more
  exact hspace _ b (tail ++ more) rfl (isSpace_of_isDelimiter hdelim)

theorem begins_append {v : Wire} (h : Begins v) (more : Wire) : Begins (v ++ more) := by
  obtain ⟨b, tail, rfl, hb⟩ := h
  exact ⟨b, tail ++ more, rfl, hb⟩

section Frame

variable {L : Leaves}

mutual

/-- A derivation depends on the text it reads: whatever comes after it, if no number
goes on, is left. -/
theorem Value.frame : ∀ {text : Wire} {j : Json} {rest : Wire}, Value L text j rest →
    ∃ v, text = v ++ rest ∧ Begins v ∧ ∀ more, Delimited more → Value L (v ++ more) j more
  | _, _, _, .scalar leaf _ =>
    ⟨_, rfl, (L.scalar_token _ _ leaf).begins, fun _ hmore => .scalar leaf hmore⟩
  | _, _, _, @Value.string _ body rest s leaf => by
    refine ⟨quote :: (body ++ [quote]), by simp, ⟨_, _, rfl, rfl⟩, ?_⟩
    intro more _
    have hvalue : Value L (quote :: (body ++ quote :: more)) (.string s) more := .string leaf
    simpa using hvalue
  | _, _, _, .emptyArray close => by
    obtain ⟨w, rfl, hw⟩ := frame_byte close
    refine ⟨openBracket :: (w ++ [closeBracket]), by simp, ⟨_, _, rfl, rfl⟩, ?_⟩
    intro more _
    have hvalue := Value.emptyArray (L := L) (hw more)
    simpa using hvalue
  | _, _, _, .array inner => by
    obtain ⟨v, rfl, hv⟩ := Items.frame inner
    exact ⟨openBracket :: v, rfl, ⟨_, _, rfl, rfl⟩, fun more _ => .array (hv more)⟩
  | _, _, _, .emptyObject close => by
    obtain ⟨w, rfl, hw⟩ := frame_byte close
    refine ⟨openBrace :: (w ++ [closeBrace]), by simp, ⟨_, _, rfl, rfl⟩, ?_⟩
    intro more _
    have hvalue := Value.emptyObject (L := L) (hw more)
    simpa using hvalue
  | _, _, _, .object inner => by
    obtain ⟨v, rfl, hv⟩ := Members.frame inner
    exact ⟨openBrace :: v, rfl, ⟨_, _, rfl, rfl⟩, fun more _ => .object (hv more)⟩

theorem Items.frame : ∀ {text : Wire} {items : List (Wire × Json)} {rest : Wire},
    Items L text items rest → ∃ v, text = v ++ rest ∧ ∀ more, Items L (v ++ more) items more
  | _, _, _, @Items.last _ text source mid rest j start value close => by
    obtain ⟨v, hv, hbegins, hframe⟩ := Value.frame value
    obtain rfl : source = v := List.append_cancel_right hv
    obtain ⟨w, rfl, hw⟩ := frame_begins start hbegins
    obtain ⟨u, rfl, hu⟩ := frame_byte close
    refine ⟨w ++ (source ++ (u ++ [closeBracket])), by simp, ?_⟩
    intro more
    have hitems := Items.last (hw _) (hframe _ (delimited_of_space (hu more) rfl)) (hu more)
    simpa using hitems
  | _, _, _, @Items.next _ text source mid text' rest j items start value more others => by
    obtain ⟨v, hv, hbegins, hframe⟩ := Value.frame value
    obtain rfl : source = v := List.append_cancel_right hv
    obtain ⟨w, rfl, hw⟩ := frame_begins start hbegins
    obtain ⟨u, rfl, hu⟩ := frame_byte more
    obtain ⟨t, rfl, ht⟩ := Items.frame others
    refine ⟨w ++ (source ++ (u ++ comma :: t)), by simp, ?_⟩
    intro after
    have hitems := Items.next (hw _) (hframe _ (delimited_of_space (hu (t ++ after)) rfl))
      (hu (t ++ after)) (ht after)
    simpa using hitems

theorem Members.frame : ∀ {text : Wire} {members : List (String × Json)} {rest : Wire},
    Members L text members rest → ∃ v, text = v ++ rest ∧ ∀ more, Members L (v ++ more) members more
  | _, _, _, @Members.last _ text body after inner mid rest key j start leaf sep value close => by
    obtain ⟨v, hv, hbegins, hframe⟩ := Value.frame value
    obtain ⟨w, rfl, hw⟩ := frame_byte start
    obtain ⟨c, rfl, hc⟩ := frame_byte sep
    obtain ⟨i, rfl, hi⟩ := frame_begins hv hbegins
    obtain ⟨u, rfl, hu⟩ := frame_byte close
    refine ⟨w ++ quote :: (body ++ quote :: (c ++ colon :: (i ++ (v ++ (u ++ [closeBrace]))))),
      by simp, ?_⟩
    intro more
    have hmembers := Members.last (hw _) leaf (hc _)
      ((hi (u ++ closeBrace :: more)).symm ▸ hframe _ (delimited_of_space (hu more) rfl)) (hu more)
    simpa using hmembers
  | _, _, _, @Members.next _ text body after inner mid text' rest key j members start leaf sep value
      more others => by
    obtain ⟨v, hv, hbegins, hframe⟩ := Value.frame value
    obtain ⟨w, rfl, hw⟩ := frame_byte start
    obtain ⟨c, rfl, hc⟩ := frame_byte sep
    obtain ⟨i, rfl, hi⟩ := frame_begins hv hbegins
    obtain ⟨u, rfl, hu⟩ := frame_byte more
    obtain ⟨t, rfl, ht⟩ := Members.frame others
    refine ⟨w ++ quote :: (body ++ quote :: (c ++ colon :: (i ++ (v ++ (u ++ comma :: t))))),
      by simp, ?_⟩
    intro after
    have hmembers := Members.next (hw _) leaf (hc _)
      ((hi (u ++ comma :: (t ++ after))).symm ▸ hframe _ (delimited_of_space (hu _) rfl))
      (hu (t ++ after)) (ht after)
    simpa using hmembers

end

theorem Value.begins {j : Json} (h : Value L text j rest) : Begins text := by
  obtain ⟨v, rfl, hv, -⟩ := h.frame
  exact begins_append hv rest

theorem Value.space_eq {j : Json} (h : Value L text j rest) :
    space text = text := space_of_begins h.begins

/-- The first item of an array is not its bracket. -/
theorem Items.not_close {text rest rest' : Wire} {items : List (Wire × Json)}
    (h : Items L text items rest) : space text ≠ closeBracket :: rest' := by
  intro hclose
  have hbegins : Begins (space text) := by
    cases h with
    | last start value _ => exact start ▸ value.begins
    | next start value _ _ => exact start ▸ value.begins
  obtain ⟨b, tail, htext, hb⟩ := hbegins
  rw [hclose] at htext
  cases htext
  cases hb

theorem Items.ne_nil {items : List (Wire × Json)} (h : Items L text items rest) :
    items ≠ [] := by
  cases h <;> simp

/-- A value's source, without the text after it. -/
theorem Value.alone {source mid : Wire} {j : Json} (h : Value L (source ++ mid) j mid) :
    Value L source j [] := by
  obtain ⟨v, hv, -, hframe⟩ := h.frame
  obtain rfl : source = v := List.append_cancel_right hv
  simpa using hframe [] delimited_nil

/-- An item's source is its value alone. -/
theorem Items.source_value : ∀ {text : Wire} {items : List (Wire × Json)} {rest : Wire},
    Items L text items rest → ∀ item ∈ items, Value L item.1 item.2 []
  | _, _, _, .last _ value _, item, hmem => by
    rw [List.mem_singleton.mp hmem]
    exact value.alone
  | _, _, _, .next _ value _ others, item, hmem => by
    rcases List.mem_cons.mp hmem with rfl | hmem
    · exact value.alone
    · exact Items.source_value others item hmem

/-- The first member of an object is not its brace. -/
theorem Members.not_close {text rest rest' : Wire} {members : List (String × Json)}
    (h : Members L text members rest) : space text ≠ closeBrace :: rest' := by
  intro hclose
  cases h with
  | last start _ _ _ _ => simp [start, quote, closeBrace] at hclose
  | next start _ _ _ _ _ => simp [start, quote, closeBrace] at hclose

/-- A number or a literal does not begin as a string, an array or an object does. -/
theorem scalar_ne {token : Wire} {j : Json} (leaf : L.scalar token = some j) (rest text : Wire) :
    token ++ rest ≠ quote :: text ∧ token ++ rest ≠ openBracket :: text ∧
      token ++ rest ≠ openBrace :: text := by
  have htoken := L.scalar_token _ _ leaf
  obtain ⟨b, tail, rfl, -⟩ := htoken.begins
  obtain ⟨hq, ho, hc⟩ := htoken.scalar tail
  simp_all

/-- A text begins with one key. -/
theorem member_unique {text body after inner body' after' inner' : Wire} {key key' : String}
    (start : space text = quote :: (body ++ quote :: after)) (leaf : L.string body = some key)
    (sep : space after = colon :: inner)
    (start' : space text = quote :: (body' ++ quote :: after')) (leaf' : L.string body' = some key')
    (sep' : space after' = colon :: inner') : key = key' ∧ after = after' ∧ inner = inner' := by
  rw [start, List.cons.injEq] at start'
  obtain ⟨rfl, rfl⟩ := stringBody_unique (L.string_body _ _ leaf) (L.string_body _ _ leaf') start'.2
  rw [leaf] at leaf'
  rw [sep] at sep'
  exact ⟨Option.some.inj leaf', rfl, (List.cons.inj sep').2⟩

mutual

/-- A text has one derivation. -/
theorem Value.unique : ∀ {text : Wire} {j : Json} {rest : Wire}, Value L text j rest →
    ∀ {j' : Json} {rest' : Wire}, Value L text j' rest' → j = j' ∧ rest = rest'
  | _, _, _, @Value.scalar _ token rest j leaf hd, j', rest', h' => by
    generalize htext : token ++ rest = text at h'
    cases h' with
    | scalar leaf' hd' =>
      obtain ⟨rfl, rfl⟩ := token_unique (L.scalar_token _ _ leaf).inside
        (L.scalar_token _ _ leaf').inside hd hd' htext
      rw [leaf] at leaf'
      exact ⟨Option.some.inj leaf', rfl⟩
    | string _ => exact absurd htext (scalar_ne leaf _ _).1
    | emptyArray _ => exact absurd htext (scalar_ne leaf _ _).2.1
    | array _ => exact absurd htext (scalar_ne leaf _ _).2.1
    | emptyObject _ => exact absurd htext (scalar_ne leaf _ _).2.2
    | object _ => exact absurd htext (scalar_ne leaf _ _).2.2
  | _, _, _, @Value.string _ body rest s leaf, j', rest', h' => by
    generalize htext : quote :: (body ++ quote :: rest) = text at h'
    cases h' with
    | scalar leaf' _ => exact absurd htext.symm (scalar_ne leaf' _ _).1
    | string leaf' =>
      simp only [List.cons.injEq, true_and] at htext
      obtain ⟨rfl, rfl⟩ := stringBody_unique (L.string_body _ _ leaf) (L.string_body _ _ leaf') htext
      rw [leaf] at leaf'
      exact ⟨by rw [Option.some.inj leaf'], rfl⟩
    | emptyArray _ => simp [quote, openBracket] at htext
    | array _ => simp [quote, openBracket] at htext
    | emptyObject _ => simp [quote, openBrace] at htext
    | object _ => simp [quote, openBrace] at htext
  | _, _, _, @Value.emptyArray _ text rest close, j', rest', h' => by
    generalize htext : openBracket :: text = whole at h'
    cases h' with
    | scalar leaf' _ => exact absurd htext.symm (scalar_ne leaf' _ _).2.1
    | string _ => simp [quote, openBracket] at htext
    | emptyArray close' =>
      cases htext
      rw [close] at close'
      exact ⟨rfl, (List.cons.inj close').2⟩
    | array inner' =>
      cases htext
      exact absurd close inner'.not_close
    | emptyObject _ => simp [openBrace, openBracket] at htext
    | object _ => simp [openBrace, openBracket] at htext
  | _, _, _, @Value.array _ text rest items inner, j', rest', h' => by
    generalize htext : openBracket :: text = whole at h'
    cases h' with
    | scalar leaf' _ => exact absurd htext.symm (scalar_ne leaf' _ _).2.1
    | string _ => simp [quote, openBracket] at htext
    | emptyArray close' =>
      cases htext
      exact absurd close' inner.not_close
    | array inner' =>
      cases htext
      obtain ⟨rfl, rfl⟩ := Items.unique inner inner'
      exact ⟨rfl, rfl⟩
    | emptyObject _ => simp [openBrace, openBracket] at htext
    | object _ => simp [openBrace, openBracket] at htext
  | _, _, _, @Value.emptyObject _ text rest close, j', rest', h' => by
    generalize htext : openBrace :: text = whole at h'
    cases h' with
    | scalar leaf' _ => exact absurd htext.symm (scalar_ne leaf' _ _).2.2
    | string _ => simp [quote, openBrace] at htext
    | emptyArray _ => simp [openBrace, openBracket] at htext
    | array _ => simp [openBrace, openBracket] at htext
    | emptyObject close' =>
      cases htext
      rw [close] at close'
      exact ⟨rfl, (List.cons.inj close').2⟩
    | object inner' =>
      cases htext
      exact absurd close inner'.not_close
  | _, _, _, @Value.object _ text rest members inner, j', rest', h' => by
    generalize htext : openBrace :: text = whole at h'
    cases h' with
    | scalar leaf' _ => exact absurd htext.symm (scalar_ne leaf' _ _).2.2
    | string _ => simp [quote, openBrace] at htext
    | emptyArray _ => simp [openBrace, openBracket] at htext
    | array _ => simp [openBrace, openBracket] at htext
    | emptyObject close' =>
      cases htext
      exact absurd close' inner.not_close
    | object inner' =>
      cases htext
      obtain ⟨rfl, rfl⟩ := Members.unique inner inner'
      exact ⟨rfl, rfl⟩

theorem Items.unique : ∀ {text : Wire} {items : List (Wire × Json)} {rest : Wire},
    Items L text items rest → ∀ {items' : List (Wire × Json)} {rest' : Wire},
      Items L text items' rest' → items = items' ∧ rest = rest'
  | _, _, _, @Items.last _ text source mid rest j start value close, _, _, h' => by
    cases h' with
    | last start' value' close' =>
      rw [← start', start] at value'
      obtain ⟨rfl, rfl⟩ := Value.unique value value'
      rw [start] at start'
      rw [close] at close'
      exact ⟨by rw [List.append_cancel_right start'], (List.cons.inj close').2⟩
    | next start' value' more' others' =>
      rw [← start', start] at value'
      obtain ⟨rfl, rfl⟩ := Value.unique value value'
      rw [close] at more'
      simp [closeBracket, comma] at more'
  | _, _, _, @Items.next _ text source mid text' rest j items start value more others, _, _, h' => by
    cases h' with
    | last start' value' close' =>
      rw [← start', start] at value'
      obtain ⟨rfl, rfl⟩ := Value.unique value value'
      rw [more] at close'
      simp [closeBracket, comma] at close'
    | next start' value' more' others' =>
      rw [← start', start] at value'
      obtain ⟨rfl, rfl⟩ := Value.unique value value'
      rw [start] at start'
      rw [more] at more'
      obtain rfl := (List.cons.inj more').2
      obtain ⟨rfl, rfl⟩ := Items.unique others others'
      exact ⟨by rw [List.append_cancel_right start'], rfl⟩

theorem Members.unique : ∀ {text : Wire} {members : List (String × Json)} {rest : Wire},
    Members L text members rest → ∀ {members' : List (String × Json)} {rest' : Wire},
      Members L text members' rest' → members = members' ∧ rest = rest'
  | _, _, _, @Members.last _ text body after inner mid rest key j start leaf sep value close,
      _, _, h' => by
    cases h' with
    | last start' leaf' sep' value' close' =>
      obtain ⟨rfl, rfl, rfl⟩ := member_unique start leaf sep start' leaf' sep'
      obtain ⟨rfl, rfl⟩ := Value.unique value value'
      rw [close] at close'
      exact ⟨rfl, (List.cons.inj close').2⟩
    | next start' leaf' sep' value' more' others' =>
      obtain ⟨rfl, rfl, rfl⟩ := member_unique start leaf sep start' leaf' sep'
      obtain ⟨rfl, rfl⟩ := Value.unique value value'
      rw [close] at more'
      simp [closeBrace, comma] at more'
  | _, _, _, @Members.next _ text body after inner mid text' rest key j members start leaf sep value
      more others, _, _, h' => by
    cases h' with
    | last start' leaf' sep' value' close' =>
      obtain ⟨rfl, rfl, rfl⟩ := member_unique start leaf sep start' leaf' sep'
      obtain ⟨rfl, rfl⟩ := Value.unique value value'
      rw [more] at close'
      simp [closeBrace, comma] at close'
    | next start' leaf' sep' value' more' others' =>
      obtain ⟨rfl, rfl, rfl⟩ := member_unique start leaf sep start' leaf' sep'
      obtain ⟨rfl, rfl⟩ := Value.unique value value'
      rw [more] at more'
      obtain rfl := (List.cons.inj more').2
      obtain ⟨rfl, rfl⟩ := Members.unique others others'
      exact ⟨rfl, rfl⟩

end

end Frame

/-! ## Every token that the delimiters allow -/

open Classical in
/-- Tokens and strings are checked no further than to find where they end. -/
noncomputable def Leaves.lenient : Leaves where
  scalar token := if ScalarToken token then some .null else none
  string body := if stringBody body then some "" else none
  scalar_token token j h := by
    by_contra hn
    rw [if_neg hn] at h
    cases h
  string_body body s h := by
    by_contra hn
    rw [if_neg hn] at h
    cases h

section Lenient

variable {L : Leaves}

theorem lenient_scalar {token : Wire} (h : ScalarToken token) :
    Leaves.lenient.scalar token = some .null := if_pos h

theorem lenient_string {body : Wire} (h : stringBody body = true) :
    Leaves.lenient.string body = some "" := if_pos h

mutual

/-- What the grammar derives, it derives with every token allowed. -/
theorem Value.lenient : ∀ {text : Wire} {j : Json} {rest : Wire}, Value L text j rest →
    ∃ j', Value Leaves.lenient text j' rest
  | _, _, _, .scalar leaf hd => ⟨_, .scalar (lenient_scalar (L.scalar_token _ _ leaf)) hd⟩
  | _, _, _, .string leaf => ⟨_, .string (lenient_string (L.string_body _ _ leaf))⟩
  | _, _, _, .emptyArray close => ⟨_, .emptyArray close⟩
  | _, _, _, .array inner => by
    obtain ⟨items', hitems, -⟩ := Items.lenient inner
    exact ⟨_, .array hitems⟩
  | _, _, _, .emptyObject close => ⟨_, .emptyObject close⟩
  | _, _, _, .object inner => by
    obtain ⟨members', hmembers⟩ := Members.lenient inner
    exact ⟨_, .object hmembers⟩

/-- The items keep their sources. -/
theorem Items.lenient : ∀ {text : Wire} {items : List (Wire × Json)} {rest : Wire},
    Items L text items rest →
      ∃ items', Items Leaves.lenient text items' rest ∧ items'.map Prod.fst = items.map Prod.fst
  | _, _, _, .last start value close => by
    obtain ⟨j', hvalue⟩ := Value.lenient value
    exact ⟨_, .last start hvalue close, rfl⟩
  | _, _, _, .next start value more others => by
    obtain ⟨j', hvalue⟩ := Value.lenient value
    obtain ⟨items', hitems, hsources⟩ := Items.lenient others
    exact ⟨_, .next start hvalue more hitems, by simp [hsources]⟩

theorem Members.lenient : ∀ {text : Wire} {members : List (String × Json)} {rest : Wire},
    Members L text members rest → ∃ members', Members Leaves.lenient text members' rest
  | _, _, _, .last start leaf sep value close => by
    obtain ⟨j', hvalue⟩ := Value.lenient value
    exact ⟨_, .last start (lenient_string (L.string_body _ _ leaf)) sep hvalue close⟩
  | _, _, _, .next start leaf sep value more others => by
    obtain ⟨j', hvalue⟩ := Value.lenient value
    obtain ⟨members', hmembers⟩ := Members.lenient others
    exact ⟨_, .next start (lenient_string (L.string_body _ _ leaf)) sep hvalue more hmembers⟩

end

/-- A value ends where it is found to end with every token allowed. -/
theorem Value.lenient_unique {text rest rest' : Wire} {j j' : Json} (h : Value L text j rest)
    (h' : Value Leaves.lenient text j' rest') : rest = rest' := by
  obtain ⟨j'', hlenient⟩ := h.lenient
  exact (hlenient.unique h').2

/-- Items are where they are found with every token allowed. -/
theorem Items.lenient_unique {text rest rest' : Wire} {items items' : List (Wire × Json)}
    (h : Items L text items rest) (h' : Items Leaves.lenient text items' rest') :
    rest = rest' ∧ items.map Prod.fst = items'.map Prod.fst := by
  obtain ⟨items'', hlenient, hsources⟩ := h.lenient
  obtain ⟨rfl, rfl⟩ := hlenient.unique h'
  exact ⟨rfl, hsources.symm⟩

end Lenient

end Qw3.Json
