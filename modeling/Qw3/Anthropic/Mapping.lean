import Qw3.Anthropic.Request
import Qw3.Json.Members
import Qw3.Lib.Steps

/-!
# Converting the messages in two parts

`convert_messages` takes each message by itself, and no other field of a request
has a part in it.

* `convertEach_append`, `convertEach_take` — the messages and their counts, in
  parts.
* `SameOptions` — two requests that differ in their messages only.
* `Front`, `impl_front` — the conversion of a request with messages before its own.
-/

namespace Qw3.Anthropic

open Json

/-! ## The messages -/

section Messages

variable {F : FloatText} {xs ms : List Json} {counts : List ℕ}

/-- The messages of two parts are converted one part after the other. -/
theorem convertEach_append (F : FloatText) (xs ys : List Json) :
    convertEach F (xs ++ ys) = (convertEach F xs).bind fun (ms, counts) =>
      (convertEach F ys).map fun (rest, more) => (ms ++ rest, counts ++ more) := by
  induction xs with
  | nil =>
    rw [List.nil_append, convertEach]
    cases convertEach F ys <;> rfl
  | cons x xs ih =>
    rw [List.cons_append, convertEach, convertEach, ih]
    cases convertMessage F x with
    | error e => rfl
    | ok converted =>
      cases convertEach F xs with
      | error e => rfl
      | ok front =>
        cases convertEach F ys with
        | error e => rfl
        | ok back => simp [Except.bind, Except.map]

/-- There is a count for each message, and they add up to what there is. -/
theorem convertEach_counts (h : convertEach F xs = .ok (ms, counts)) :
    counts.length = xs.length ∧ counts.sum = ms.length := by
  induction xs generalizing ms counts with
  | nil =>
    cases h
    exact ⟨rfl, rfl⟩
  | cons x xs ih =>
    rw [convertEach] at h
    obtain ⟨converted, -, h⟩ := Except.bind_eq_ok.mp h
    obtain ⟨⟨rest, more⟩, hrest, h⟩ := Except.map_eq_ok.mp h
    cases h
    obtain ⟨hlength, hsum⟩ := ih hrest
    exact ⟨by simp [hlength], by simp [hsum]⟩

/-- The first messages become the first of what there is. -/
theorem convertEach_take (h : convertEach F xs = .ok (ms, counts)) (k : ℕ) :
    convertEach F (xs.take k) = .ok (ms.take (counts.take k).sum, counts.take k) := by
  induction xs generalizing ms counts k with
  | nil =>
    cases h
    simp [convertEach]
  | cons x xs ih =>
    cases k with
    | zero => simp [convertEach]
    | succ k =>
      rw [convertEach] at h
      obtain ⟨converted, hconverted, h⟩ := Except.bind_eq_ok.mp h
      obtain ⟨⟨rest, more⟩, hrest, h⟩ := Except.map_eq_ok.mp h
      cases h
      rw [List.take_succ_cons, convertEach, hconverted, ih hrest k]
      simp [Except.bind, Except.map, List.take_length_add_append]

end Messages

/-- A system field becomes one message or none. -/
theorem systemMessages_cases {system : Json} {ms : List Json} (h : systemMessages system = .ok ms) :
    ms = [] ∨ ∃ text, ms = [systemMessage text] := by
  rw [systemMessages.eq_def] at h
  split at h
  next =>
    cases h
    exact .inl rfl
  next =>
    obtain ⟨modelSystem, -, h⟩ := Except.bind_eq_ok.mp h
    obtain ⟨text, -, h⟩ := Except.map_eq_ok.mp h
    split at h
    next => exact .inl h.symm
    next => exact .inr ⟨text, h.symm⟩

theorem systemField_cases {request : Json} {ms : List Json} (h : systemField request = .ok ms) :
    ms = [] ∨ ∃ text, ms = [systemMessage text] := by
  rw [systemField] at h
  split at h
  next =>
    cases h
    exact .inl rfl
  next => exact systemMessages_cases h

/-- A system message is equal to itself only: it has no numbers. -/
theorem eq_of_equal_systemMessage {text : String} {raw : Json}
    (h : (systemMessage text).equal raw = true) : systemMessage text = raw := by
  have hstring : ∀ (s : String) (j : Json), agree Number.equal (.string s) j = true →
      Json.string s = j := by
    intro s j hs
    cases j <;> simp_all [agree]
  have hlt : "content" < "role" := by decide
  have hmembers : systemMessage text =
      .object [("content", .string text), ("role", .string "system")] := by
    simp [systemMessage, ofMembers, insertMember, hlt]
  rw [hmembers] at h ⊢
  cases raw with
  | object members =>
    rw [equal, agree] at h
    obtain ⟨⟨k, v⟩, ⟨l, w⟩, rfl⟩ := List.length_eq_two.mp (agreeMembers_length h).symm
    rw [agreeMembers, agreeMembers, agreeMembers, Bool.and_true] at h
    simp only [Bool.and_eq_true, beq_iff_eq] at h
    obtain ⟨⟨rfl, hv⟩, rfl, hw⟩ := h
    rw [hstring _ _ hv, hstring _ _ hw]
  | _ => cases h

/-! ## The other fields -/

/-- None of the members is the messages. -/
def Others (members : List (String × Json)) : Prop := ∀ m ∈ members, m.1 ≠ "messages"

theorem Others.append {xs ys : List (String × Json)} (hx : Others xs) (hy : Others ys) :
    Others (xs ++ ys) := by
  intro m hm
  rcases List.mem_append.mp hm with hm | hm
  · exact hx m hm
  · exact hy m hm

theorem others_nil : Others [] := by
  intro m hm
  cases hm

theorem others_singleton {key : String} {v : Json} (h : key ≠ "messages") : Others [(key, v)] := by
  intro m hm
  obtain rfl := List.mem_singleton.mp hm
  exact h

theorem others_optional {get : String → Option Json} {key : String}
    {convert : Json → Except Failure (List (String × Json))} {members : List (String × Json)}
    (hconvert : ∀ v ms, convert v = .ok ms → Others ms)
    (h : optional get key convert = .ok members) : Others members := by
  rw [optional] at h
  split at h
  next =>
    cases h
    exact others_nil
  next v _ => exact hconvert v members h

variable {ms : List (String × Json)}

theorem others_maxTokens {v : Json} (h : convertMaxTokens v = .ok ms) :
    Others ms := by
  rw [convertMaxTokens] at h
  split at h <;> cases h
  exact others_singleton (by decide)

theorem others_stop {v : Json} (h : convertStop v = .ok ms) :
    Others ms := by
  cases v with
  | array stops =>
    rw [convertStop] at h
    split at h <;> cases h
    exact others_singleton (by decide)
  | _ => cases h

theorem others_stream {v : Json} (h : convertStream v = .ok ms) :
    Others ms := by
  cases v with
  | boolean b =>
    cases h
    exact others_singleton (by decide)
  | _ => cases h

theorem others_map {key : String} (hkey : key ≠ "messages") {x : Except Failure Json}
    (h : (x.map fun v => [(key, v)]) = .ok ms) : Others ms := by
  obtain ⟨v, -, rfl⟩ := Except.map_eq_ok.mp h
  exact others_singleton hkey

theorem others_thinking {v : Json} (h : convertThinking v = .ok ms) :
    Others ms := by
  have hthinking : ∀ b, Others [("enable_thinking", .boolean b)] :=
    fun b => others_singleton (by decide)
  rw [convertThinking] at h
  split at h
  next => cases h
  next type =>
    split at h
    next =>
      cases h
      exact hthinking false
    next =>
      split at h
      next =>
        split at h
        next =>
          cases h
          exact hthinking true
        next =>
          split at h <;> cases h
          exact (hthinking true).append (others_singleton (by decide))
      next => cases h

/-- No other field becomes the messages. -/
theorem others_options {get : String → Option Json} {options : List (String × Json)}
    (h : convertOptions get = .ok options) : Others options := by
  obtain ⟨maxTokens, hmax, h⟩ := Except.bind_eq_ok.mp h
  obtain ⟨stop, hstop, h⟩ := Except.bind_eq_ok.mp h
  obtain ⟨stream, hstream, h⟩ := Except.bind_eq_ok.mp h
  obtain ⟨tools, htools, h⟩ := Except.bind_eq_ok.mp h
  obtain ⟨choice, hchoice, h⟩ := Except.bind_eq_ok.mp h
  obtain ⟨thinking, hthinking, h⟩ := Except.bind_eq_ok.mp h
  obtain ⟨usage, -, h⟩ := Except.bind_eq_ok.mp h
  cases h
  have hcopied : Others (["temperature", "top_p", "top_k"].filterMap fun key =>
      (get key).map fun value => (key, value)) := by
    intro m hm
    obtain ⟨key, hkey, heq⟩ := List.mem_filterMap.mp hm
    obtain ⟨v, -, rfl⟩ := Option.map_eq_some_iff.mp heq
    have hne : ∀ key ∈ ["temperature", "top_p", "top_k"], key ≠ "messages" := by decide
    exact hne key hkey
  have husage : Others (if usage = true then
      [("stream_options", ofMembers [("include_usage", .boolean true)])] else []) := by
    split
    next => exact others_singleton (by decide)
    next => exact others_nil
  refine Others.append (((((Others.append (Others.append ?_ hcopied) ?_).append ?_).append ?_).append
    ?_).append ?_) husage
  · exact others_optional (fun _ _ => others_maxTokens) hmax
  · exact others_optional (fun _ _ => others_stop) hstop
  · exact others_optional (fun _ _ => others_stream) hstream
  · exact others_optional (fun _ _ => others_map (by decide)) htools
  · exact others_optional (fun _ _ => others_map (by decide)) hchoice
  · exact others_optional (fun _ _ => others_thinking) hthinking

/-! ## The request -/

/-- Two requests that differ in their messages only. -/
structure SameOptions (request whole : Json) : Prop where
  isObject : whole.isObject = request.isObject
  find? : ∀ key, key ≠ "messages" → whole.find? key = request.find? key

theorem SameOptions.convertOptions {request whole : Json} (h : SameOptions request whole) :
    convertOptions (fun key => whole.find? key) = convertOptions fun key => request.find? key := by
  have hget : ∀ key ∈ ["max_tokens", "temperature", "top_p", "top_k", "stop_sequences", "stream",
      "tools", "tool_choice", "thinking"], whole.find? key = request.find? key := by
    intro key hkey
    apply h.find?
    rintro rfl
    simp at hkey
  simp only [List.forall_mem_cons, List.not_mem_nil, false_imp_iff, implies_true, and_true] at hget
  obtain ⟨h1, h2, h3, h4, h5, h6, h7, h8, h9⟩ := hget
  simp only [Anthropic.convertOptions, optional, List.filterMap_cons, List.filterMap_nil, h1, h2, h3,
    h4, h5, h6, h7, h8, h9]

/-- What a request with `front` before its own messages `back` is converted to,
beside what the request is: the front becomes `ms`, with `counts`. -/
inductive Front (F : FloatText) (back ms : List Json) (counts : List ℕ) :
    Except Failure (Json × AnthropicMessageMapping) →
      Except Failure (Json × AnthropicMessageMapping) → Prop
  | error (e : Failure) : Front F back ms counts (.error e) (.error e)
  | ok {model : String} {system converted : List Json} {options : List (String × Json)}
      {more : List ℕ} (hsystem : system = [] ∨ ∃ text, system = [systemMessage text])
      (hback : convertEach F back = .ok (converted, more)) (hoptions : Others options) :
      Front F back ms counts
        (.ok (openaiRequest model (system ++ converted) options, ⟨system.length, more⟩))
        (.ok (openaiRequest model (system ++ (ms ++ converted)) options,
          ⟨system.length, counts ++ more⟩))

theorem impl_front {F : FloatText} {request whole : Json} {front back ms : List Json}
    {counts : List ℕ} (h : SameOptions request whole)
    (hback : request.find? "messages" = some (.array back))
    (hwhole : whole.find? "messages" = some (.array (front ++ back)))
    (hfront : convertEach F front = .ok (ms, counts)) (requireMaxTokens : Bool) :
    Front F back ms counts (anthropicRequestToOpenaiImpl F request requireMaxTokens)
      (anthropicRequestToOpenaiImpl F whole requireMaxTokens) := by
  have hmodel : whole.findString? "model" = request.findString? "model" := by
    rw [findString?, findString?, h.find? "model" (by decide)]
  have hfield : systemField whole = systemField request := by
    rw [systemField, systemField, h.find? "system" (by decide)]
  have hmax : whole.contains "max_tokens" = request.contains "max_tokens" := by
    rw [contains, contains, h.find? "max_tokens" (by decide)]
  rw [anthropicRequestToOpenaiImpl, anthropicRequestToOpenaiImpl, h.isObject, hmodel, hmax, hback,
    hwhole, hfield, h.convertOptions]
  split
  next => exact .error _
  next =>
    cases request.findString? "model" with
    | none => exact .error _
    | some model =>
      dsimp only
      split
      next => exact .error _
      next =>
        split
        next => exact .error _
        next =>
          cases hsystem : systemField request with
          | error e => exact .error e
          | ok system =>
            simp only [convertMessages, convertEach_append, hfront]
            cases hconvert : convertEach F back with
            | error e => exact .error e
            | ok converted =>
              cases hoptions : Anthropic.convertOptions fun key => request.find? key with
              | error e => exact .error e
              | ok options =>
                exact .ok (systemField_cases hsystem) hconvert (others_options hoptions)

theorem Front.openai {F : FloatText} {request whole : Json} {back ms : List Json}
    {counts : List ℕ} {requireMaxTokens : Bool}
    (h : Front F back ms counts (anthropicRequestToOpenaiImpl F request requireMaxTokens)
      (anthropicRequestToOpenaiImpl F whole requireMaxTokens)) :
    (∃ error, anthropicRequestToOpenai F request requireMaxTokens = .error error ∧
      anthropicRequestToOpenai F whole requireMaxTokens = .error error) ∨
    ∃ model system converted options more,
      (system = [] ∨ ∃ text, system = [systemMessage text]) ∧
      convertEach F back = .ok (converted, more) ∧ Others options ∧
      anthropicRequestToOpenai F request requireMaxTokens =
        .ok (openaiRequest model (system ++ converted) options, ⟨system.length, more⟩) ∧
      anthropicRequestToOpenai F whole requireMaxTokens =
        .ok (openaiRequest model (system ++ (ms ++ converted)) options,
          ⟨system.length, counts ++ more⟩) := by
  rw [anthropicRequestToOpenai, anthropicRequestToOpenai]
  generalize anthropicRequestToOpenaiImpl F request requireMaxTokens = x at h ⊢
  generalize anthropicRequestToOpenaiImpl F whole requireMaxTokens = y at h ⊢
  cases h with
  | error e =>
    cases e with
    | refused error => exact .inl ⟨error, rfl, rfl⟩
    | threw what => exact .inl ⟨_, rfl, rfl⟩
  | ok hsystem hback hoptions =>
    exact .inr ⟨_, _, _, _, _, hsystem, hback, hoptions, rfl, rfl⟩

end Qw3.Anthropic
