import Mathlib.Algebra.Group.Basic
import Mathlib.Algebra.GroupWithZero.Nat
import Mathlib.Data.List.ReduceOption
import Mathlib.Order.Monotone.Basic
import Mathlib.Order.Nat
import Qw3.Lib.Steps

/-!
# Padding of rounds

`qw3_server.cpp`, `kvmem_round_padding`: newline tokens are inserted before the first
retrieval group and after each, so that every group starts at a block.

The loop looks at no token, so it can be run on the indices of the prompt.  A coordinate
is right when the token that it points to afterwards came from the index that it was.

* `alignTokens` — the source's loop, on tokens of any kind: none is looked at.
* `roundPadding` — the whole path, with its checks and the spans that it carries along.
* `origins` — the loop run on the indices of the prompt's tokens: where each one came from.
* `Laid` — what the loop has built.
* `roundPadding_iff` — **the coordinates stay right exactly where no padding falls on or
  before the ends that are not carried along**.
-/

namespace Qw3.Policy.RoundPadding

/-! ## The source -/

/-- A half-open interval of tokens. -/
structure TokenSpan where
  (begin' end' : ℕ)
  deriving DecidableEq, Repr

/-- What the path reads and writes of `GenerationOptions`. -/
structure GenerationOptions where
  query : TokenSpan
  context : TokenSpan
  replay : TokenSpan
  retrievalGroupSpans : List TokenSpan
  pinnedTokenSpans : List TokenSpan
  maxTokens : ℤ
  promptTokenIdsOverride : List ℤ
  deriving DecidableEq

/-- `encode_usage` and `decode_usage`, over bytes. -/
structure UsageTokenizer where
  encode : List UInt8 → List ℤ
  decode : ℤ → List UInt8

/-- What the path reads of the request and of the server's configuration. -/
structure Request where
  /-- `req["kvmem_round_padding"]`, where it is an integer. -/
  roundPadding : Option ℤ
  mapRetrievalGroups : Bool
  /-- A transcript replay, a session, a cache, oracle spans or an inline refresh. -/
  combined : Bool
  kvmemBlockTokens : ℤ
  archivePrefixTokens : ℕ
  requestContextLimit : ℕ
  /-- The protocol bound. -/
  limit_le : requestContextLimit ≤ 4294967295

/-- An error response, or an exception. -/
inductive Failure
  | response (status : ℕ) (message : String)
  | thrown (message : String)
  deriving DecidableEq, Repr

/-- `static_cast<uint32_t>`. -/
def u32 (n : ℕ) : ℕ := n % 4294967296

section Loop

variable {α : Type}

/-- What the loop has built: the tokens, the `PaddingInsertion`s and the groups, up to
`cursor` in the prompt. -/
structure Aligning (α : Type) where
  tokens : List α
  insertions : List (ℕ × ℕ)
  groups : List TokenSpan
  cursor : ℕ

/-- The tokens of a span. -/
def slice (l : List α) (begin' end' : ℕ) : List α := (l.drop begin').take (end' - begin')

/-- `(alignment - aligned_tokens.size() % alignment) % alignment`. -/
def padCount (alignment size : ℕ) : ℕ := (alignment - size % alignment) % alignment

/-- `append_source`. -/
def Aligning.appendSource (prompt : List α) (begin' end' : ℕ) (s : Aligning α) : Aligning α :=
  { s with tokens := s.tokens ++ slice prompt begin' end', cursor := end' }

/-- `append_padding`. -/
def Aligning.appendPadding (newline : α) (originalBoundary count : ℕ) (s : Aligning α) : Aligning α :=
  if count = 0 then s
  else { s with
    tokens := s.tokens ++ List.replicate count newline
    insertions := s.insertions ++ [(originalBoundary, count)] }

/-- The body of the loop over the groups. -/
def alignGroup (alignment : ℕ) (newline : α) (prompt : List α) (s : Aligning α) (group : TokenSpan) :
    Except Failure (Aligning α) :=
  if group.begin' ≠ s.cursor ∨ group.end' ≤ group.begin' ∨ prompt.length < group.end' then
    .error (.response 500 "round padding received inconsistent token groups")
  else
    let alignedBegin := u32 s.tokens.length
    if alignedBegin % alignment ≠ 0 then
      .error (.response 500 "round padding failed to align a group start")
    else
      let t := s.appendSource prompt group.begin' group.end'
      let t := { t with groups := t.groups ++ [(⟨alignedBegin, u32 t.tokens.length⟩ : TokenSpan)] }
      .ok (t.appendPadding newline group.end' (padCount alignment t.tokens.length))

/-- The tokens before the first group, padded. -/
def alignPrefix (alignment : ℕ) (newline : α) (prompt : List α) (first : ℕ) : Aligning α :=
  let s := (⟨[], [], [], 0⟩ : Aligning α).appendSource prompt 0 first
  s.appendPadding newline first (padCount alignment s.tokens.length)

/-- The padded tokens, where `groups` is `first :: rest`. -/
def alignTokens (alignment : ℕ) (newline : α) (prompt : List α) (first : TokenSpan) (rest : List TokenSpan) :
    Except Failure (Aligning α) := do
  let s ← (first :: rest).foldlM (alignGroup alignment newline prompt)
    (alignPrefix alignment newline prompt first.begin')
  return s.appendSource prompt s.cursor prompt.length

end Loop

/-- How many tokens were inserted up to a boundary: the loop of
`map_boundary_after_padding`, which breaks at the first boundary behind. -/
def shift (insertions : List (ℕ × ℕ)) (original : ℕ) : ℕ :=
  ((insertions.takeWhile fun p => p.1 ≤ original).map Prod.snd).sum

/-- `map_boundary_after_padding`. -/
def mapBoundaryAfterPadding (insertions : List (ℕ × ℕ)) (original : ℕ) : Except Failure ℕ :=
  let mapped := original + shift insertions original
  if 4294967295 < mapped then .error (.thrown "round padding mapped token position overflows u32")
  else .ok mapped

/-- Both ends of a span that is not empty. -/
def mapSpan (insertions : List (ℕ × ℕ)) (s : TokenSpan) : Except Failure TokenSpan :=
  if s.begin' < s.end' then do
    let begin' ← mapBoundaryAfterPadding insertions s.begin'
    let end' ← mapBoundaryAfterPadding insertions s.end'
    return ⟨begin', end'⟩
  else .ok s

/-- `remaining_output_capacity`. -/
def Request.remainingOutputCapacity (request : Request) (occupied : ℕ) : ℤ :=
  if occupied < request.requestContextLimit then min (request.requestContextLimit - occupied) 2147483647 else 0

/-- The padded prompt and the options that go with it. -/
def padded (request : Request) (alignment : ℕ) (newline : ℤ) (options : GenerationOptions) (prompt : List ℤ)
    (first : TokenSpan) (rest : List TokenSpan) : Except Failure (GenerationOptions × List ℤ) := do
  let s ← alignTokens alignment newline prompt first rest
  let query ← mapSpan s.insertions options.query
  let context ← mapSpan s.insertions options.context
  let occupied := request.archivePrefixTokens + s.tokens.length
  if request.requestContextLimit ≤ occupied then
    throw (.response 413 ("archive prefix plus round-padded prompt exceeds KV context: archive_tokens=" ++
      toString request.archivePrefixTokens ++ " prompt_tokens=" ++ toString s.tokens.length ++
      " request_limit=" ++ toString request.requestContextLimit))
  return ({ options with
    query, context
    retrievalGroupSpans := s.groups
    maxTokens := min options.maxTokens (request.remainingOutputCapacity occupied)
    promptTokenIdsOverride := s.tokens }, s.tokens)

/-- The path of `kvmem_round_padding`: the checks of the request, of the newline token and
of the groups. -/
def roundPadding (request : Request) (tokenizer : UsageTokenizer) (options : GenerationOptions) (prompt : List ℤ) :
    Except Failure (GenerationOptions × List ℤ) :=
  match request.roundPadding with
  | none => .error (.response 400 "kvmem_round_padding must be an integer")
  | some requested =>
      if requested ≤ 0 ∨ 4294967295 < requested then
        .error (.response 400 "kvmem_round_padding must be positive")
      else
        match options.retrievalGroupSpans with
        | [] => .error (.response 400 "kvmem_round_padding requires kvmem_retrieval_group_spans")
        | first :: rest =>
            if request.mapRetrievalGroups = false then
              .error (.response 400 "kvmem_round_padding requires kvmem_retrieval_group_spans")
            else if requested ≠ request.kvmemBlockTokens then
              .error (.response 400
                "kvmem_round_padding must equal --kvmem-block-tokens for exclusive round blocks")
            else if request.combined then
              .error (.response 400 ("kvmem_round_padding currently supports only standalone round-retrieval " ++
                "requests without replay/oracle/refresh"))
            else
              match tokenizer.encode [10] with
              | [newline] =>
                  if tokenizer.decode newline ≠ [10] then
                    .error (.response 500 "tokenizer has no exact one-token newline for kvmem_round_padding")
                  else if ¬ List.IsChain (fun g h => g.end' = h.begin') (first :: rest) then
                    .error (.response 400 ("kvmem_round_padding requires exact, gap-free token round boundaries " ++
                      "(no BPE overlap/rounding)"))
                  else if prompt.length < ((first :: rest).getLast (List.cons_ne_nil _ _)).end' then
                    .error (.response 500 "round padding group exceeds the tokenized prompt")
                  else padded request requested.toNat newline options prompt first rest
              | _ => .error (.response 500 "tokenizer has no exact one-token newline for kvmem_round_padding")

/-! ## Where the tokens came from -/

/-- The indices of the prompt's tokens. -/
def labels (n : ℕ) : List (Option ℕ) := (List.range n).map some

/-- For each padded token the index of the token that it is; none for one that was
inserted. -/
def origins (alignment n : ℕ) : List TokenSpan → List (Option ℕ)
  | [] => labels n
  | first :: rest =>
      match alignTokens alignment none (labels n) first rest with
      | .ok s => s.tokens
      | .error _ => []

section Naturality

variable {α β : Type}

/-- The tokens replaced. -/
def Aligning.map (f : α → β) (s : Aligning α) : Aligning β := ⟨s.tokens.map f, s.insertions, s.groups, s.cursor⟩

theorem map_slice (f : α → β) (l : List α) (begin' end' : ℕ) : (slice l begin' end').map f = slice (l.map f) begin' end' := by
  unfold slice
  rw [List.map_take, List.map_drop]

theorem Aligning.map_appendSource (f : α → β) (prompt : List α) (begin' end' : ℕ) (s : Aligning α) :
    (s.appendSource prompt begin' end').map f = (s.map f).appendSource (prompt.map f) begin' end' := by
  unfold Aligning.appendSource Aligning.map
  rw [List.map_append, map_slice]

theorem Aligning.map_appendPadding (f : α → β) (newline : α) (boundary count : ℕ) (s : Aligning α) :
    (s.appendPadding newline boundary count).map f = (s.map f).appendPadding (f newline) boundary count := by
  unfold Aligning.appendPadding
  split_ifs with hcount
  · rfl
  · unfold Aligning.map
    rw [List.map_append, List.map_replicate]

theorem alignGroup_map (f : α → β) (alignment : ℕ) (newline : α) (prompt : List α) (s : Aligning α) (g : TokenSpan) :
    alignGroup alignment (f newline) (prompt.map f) (s.map f) g =
      (alignGroup alignment newline prompt s g).map (Aligning.map f) := by
  have hlength : (s.map f).tokens.length = s.tokens.length := List.length_map f
  have hcursor : (s.map f).cursor = s.cursor := rfl
  unfold alignGroup
  rw [List.length_map, hlength, hcursor]
  dsimp only
  split_ifs with hbad halign
  · rfl
  · rfl
  · rw [Except.map, Aligning.map_appendPadding, ← Aligning.map_appendSource]
    unfold Aligning.map Aligning.appendSource
    simp only [List.length_map]

/-- The loop does not look at the tokens. -/
theorem alignTokens_map (f : α → β) (alignment : ℕ) (newline : α) (prompt : List α) (first : TokenSpan)
    (rest : List TokenSpan) : alignTokens alignment (f newline) (prompt.map f) first rest =
      (alignTokens alignment newline prompt first rest).map (Aligning.map f) := by
  have hloop : ∀ (l : List TokenSpan) (s : Aligning α), l.foldlM (alignGroup alignment (f newline) (prompt.map f)) (s.map f) =
      (l.foldlM (alignGroup alignment newline prompt) s).map (Aligning.map f) := by
    intro l
    induction l with
    | nil => exact fun s => rfl
    | cons g l ih =>
        intro s
        rw [List.foldlM_cons, List.foldlM_cons, alignGroup_map]
        cases alignGroup alignment newline prompt s g with
        | error e => rfl
        | ok t => exact ih t
  have hstart : alignPrefix alignment (f newline) (prompt.map f) first.begin' =
      (alignPrefix alignment newline prompt first.begin').map f := by
    unfold alignPrefix
    dsimp only
    rw [Aligning.map_appendPadding, Aligning.map_appendSource]
    congr 2
    unfold Aligning.appendSource
    simp only [← map_slice, List.nil_append, List.length_map]
  unfold alignTokens
  rw [hstart, hloop]
  cases (first :: rest).foldlM (alignGroup alignment newline prompt) (alignPrefix alignment newline prompt first.begin') with
  | error e => rfl
  | ok s =>
      refine congrArg Except.ok ?_
      rw [List.length_map]
      exact (Aligning.map_appendSource f prompt _ _ s).symm

end Naturality

/-! ## How far tokens are shifted -/

/-- Where a token of the prompt is after the padding. -/
def image (insertions : List (ℕ × ℕ)) (i : ℕ) : ℕ := i + shift insertions i

variable {insertions : List (ℕ × ℕ)} {boundary count i j : ℕ}

/-- An insertion behind a token does not shift it. -/
theorem shift_concat_of_lt (h : i < boundary) : shift (insertions ++ [(boundary, count)]) i = shift insertions i := by
  induction insertions with
  | nil => simp [shift, h]
  | cons p l ih =>
      unfold shift at ih ⊢
      by_cases hp : p.1 ≤ i
      · simp [hp, ih]
      · simp [hp]

theorem shift_eq_sum (h : ∀ p ∈ insertions, p.1 ≤ i) : shift insertions i = (insertions.map Prod.snd).sum := by
  have hall : insertions.takeWhile (fun p => p.1 ≤ i) = insertions := by
    induction insertions with
    | nil => rfl
    | cons p l ih =>
        have hrest := ih fun q hq => h q (List.mem_cons_of_mem _ hq)
        simp [h p List.mem_cons_self, hrest]
  rw [shift, hall]

theorem shift_mono (h : i ≤ j) : shift insertions i ≤ shift insertions j := by
  induction insertions with
  | nil => exact le_rfl
  | cons p l ih =>
      unfold shift at ih ⊢
      by_cases hp : p.1 ≤ i
      · simp [hp, hp.trans h, ih]
      · simp [hp]

theorem image_strictMono : StrictMono (image insertions) := fun _ _ h =>
  Nat.add_lt_add_of_lt_of_le h (shift_mono h.le)

/-- In ascending order the loop misses no insertion when it breaks. -/
theorem shift_eq_filter (hs : insertions.Pairwise fun p q => p.1 ≤ q.1) :
    shift insertions i = ((insertions.filter fun p => p.1 ≤ i).map Prod.snd).sum := by
  induction insertions with
  | nil => rfl
  | cons p l ih =>
      obtain ⟨hp, hl⟩ := List.pairwise_cons.mp hs
      have hrest := ih hl
      unfold shift at hrest ⊢
      by_cases hi : p.1 ≤ i
      · simp [hi, hrest]
      · have hnone : l.filter (fun q => decide (q.1 ≤ i)) = [] :=
          List.filter_eq_nil_iff.mpr fun q hq => by simpa using (Nat.lt_of_not_le hi).trans_le (hp q hq)
        simp [hi, hnone]

/-- What the selected insertions add. -/
theorem sum_filter_eq_zero (P : ℕ × ℕ → Prop) [DecidablePred P] (l : List (ℕ × ℕ)) :
    ((l.filter fun p => P p).map Prod.snd).sum = 0 ↔ ∀ p ∈ l, P p → p.2 = 0 := by
  rw [List.sum_eq_zero_iff_forall_eq_nat]
  constructor
  · intro hzero p hp hP
    exact hzero p.2 (List.mem_map_of_mem (List.mem_filter.mpr ⟨hp, decide_eq_true hP⟩))
  · intro hzero c hc
    obtain ⟨p, hp, rfl⟩ := List.mem_map.mp hc
    obtain ⟨hmem, hP⟩ := List.mem_filter.mp hp
    exact hzero p hmem (of_decide_eq_true hP)

theorem shift_eq_zero_iff (hs : insertions.Pairwise fun p q => p.1 ≤ q.1) :
    shift insertions i = 0 ↔ ∀ p ∈ insertions, p.1 ≤ i → p.2 = 0 := by
  rw [shift_eq_filter hs, sum_filter_eq_zero]

/-- Two places are shifted alike where nothing is inserted between them. -/
theorem shift_eq_iff (hs : insertions.Pairwise fun p q => p.1 ≤ q.1) (h : i ≤ j) :
    shift insertions i = shift insertions j ↔ ∀ p ∈ insertions, i < p.1 → p.1 ≤ j → p.2 = 0 := by
  have hsplit : ∀ l : List (ℕ × ℕ), ((l.filter fun p => p.1 ≤ j).map Prod.snd).sum =
      ((l.filter fun p => p.1 ≤ i).map Prod.snd).sum + ((l.filter fun p => i < p.1 ∧ p.1 ≤ j).map Prod.snd).sum := by
    intro l
    induction l with
    | nil => rfl
    | cons p l ih =>
        by_cases hi : p.1 ≤ i
        · simp [hi, hi.trans h, Nat.not_lt.mpr hi, ih, Nat.add_assoc]
        · by_cases hj : p.1 ≤ j
          · simp [hi, hj, Nat.lt_of_not_le hi, ih]
            omega
          · simp [hi, hj, ih]
  rw [shift_eq_filter hs, shift_eq_filter hs, hsplit, Nat.left_eq_add, sum_filter_eq_zero]
  exact forall₂_congr fun p _ => and_imp

/-! ## What the loop has built -/

section Invariant

variable {alignment n : ℕ} {s t : Aligning (Option ℕ)} {first g : TokenSpan} {rest done l : List TokenSpan}

theorem slice_labels {begin' end' : ℕ} (h : end' ≤ n) :
    slice (labels n) begin' end' = (List.range' begin' (end' - begin')).map some := by
  unfold slice labels
  rw [← List.map_drop, ← List.map_take, List.range_eq_range', List.drop_range', Nat.zero_add, Nat.mul_one,
    List.take_range'_of_length_ge (Nat.sub_le_sub_right h begin')]

/-- Every token up to the cursor is there once, shifted by what was inserted before it. -/
structure Placed (s : Aligning (Option ℕ)) : Prop where
  source : s.tokens.reduceOption = List.range s.cursor
  place : ∀ p i, s.tokens[p]? = some (some i) ↔ i < s.cursor ∧ p = image s.insertions i
  length : s.tokens.length = s.cursor + (s.insertions.map Prod.snd).sum
  before : ∀ p ∈ s.insertions, p.1 ≤ s.cursor
  sorted : s.insertions.Pairwise fun p q => p.1 ≤ q.1

theorem placed_nil : Placed ⟨[], [], [], 0⟩ where
  source := rfl
  place p i := by simp
  length := rfl
  before p hp := absurd hp List.not_mem_nil
  sorted := .nil

/-- The tokens behind the cursor come after all insertions. -/
theorem Placed.image_of_le (h : Placed s) {i : ℕ} (hi : s.cursor ≤ i) :
    image s.insertions i = s.tokens.length + (i - s.cursor) := by
  unfold image
  rw [shift_eq_sum fun p hp => (h.before p hp).trans hi, h.length]
  omega

theorem Placed.appendSource (h : Placed s) {end' : ℕ} (hcursor : s.cursor ≤ end') (hend : end' ≤ n) :
    Placed (s.appendSource (labels n) s.cursor end') where
  source := by
    show (s.tokens ++ slice (labels n) s.cursor end').reduceOption = List.range end'
    have hlabels : ∀ l : List ℕ, (l.map some).reduceOption = l := fun l => by
      rw [List.reduceOption, List.filterMap_map]
      exact List.filterMap_some
    rw [List.reduceOption_append, slice_labels hend, hlabels, h.source, List.range_eq_range', List.range_eq_range']
    have hsplit := List.range'_append_1 (s := 0) (m := s.cursor) (n := end' - s.cursor)
    rwa [Nat.zero_add, Nat.add_sub_cancel' hcursor] at hsplit
  place p i := by
    show (s.tokens ++ slice (labels n) s.cursor end')[p]? = _ ↔ i < end' ∧ p = image s.insertions i
    rw [slice_labels hend]
    rcases Nat.lt_or_ge p s.tokens.length with hp | hp
    · rw [List.getElem?_append_left hp, h.place]
      refine ⟨fun hi => ⟨hi.1.trans_le hcursor, hi.2⟩, fun hi => ⟨?_, hi.2⟩⟩
      by_contra hge
      have himage := h.image_of_le (Nat.le_of_not_lt hge)
      omega
    · rw [List.getElem?_append_right hp]
      have hless : ∀ i < s.cursor, image s.insertions i < s.tokens.length := by
        intro i hi
        have hlt : image s.insertions i < image s.insertions s.cursor := image_strictMono hi
        rwa [h.image_of_le le_rfl, Nat.sub_self, Nat.add_zero] at hlt
      by_cases hin : p - s.tokens.length < end' - s.cursor
      · rw [List.getElem?_map, List.getElem?_range' hin, Option.map_some, Option.some_inj, Option.some_inj]
        constructor
        · intro hi
          have himage := h.image_of_le (i := i) (by omega)
          omega
        · rintro ⟨hi, rfl⟩
          have hge : s.cursor ≤ i := Nat.le_of_not_lt fun hlt => absurd (hless i hlt) (Nat.not_lt.mpr hp)
          rw [h.image_of_le hge]
          omega
      · rw [List.getElem?_eq_none (by rw [List.length_map, List.length_range']; exact Nat.le_of_not_lt hin)]
        refine ⟨nofun, fun ⟨hi, hplace⟩ => ?_⟩
        have hge : s.cursor ≤ i := Nat.le_of_not_lt fun hlt =>
          absurd (hplace ▸ hless i hlt) (Nat.not_lt.mpr hp)
        rw [h.image_of_le hge] at hplace
        omega
  length := by
    show (s.tokens ++ slice (labels n) s.cursor end').length = end' + _
    rw [List.length_append, slice_labels hend, List.length_map, List.length_range', h.length]
    show s.cursor + _ + (end' - s.cursor) = end' + (s.insertions.map Prod.snd).sum
    omega
  before p hp := (h.before p hp).trans hcursor
  sorted := h.sorted

theorem Placed.appendPadding (h : Placed s) (count : ℕ) : Placed (s.appendPadding none s.cursor count) := by
  unfold Aligning.appendPadding
  split_ifs with hcount
  · exact h
  · have himage : ∀ i < s.cursor, image (s.insertions ++ [(s.cursor, count)]) i = image s.insertions i := fun i hi =>
      congrArg (i + ·) (shift_concat_of_lt hi)
    refine ⟨?_, fun p i => ?_, ?_, ?_, ?_⟩
    · dsimp only
      rw [List.reduceOption_append, List.reduceOption_replicate_none, List.append_nil, h.source]
    · dsimp only
      constructor
      · intro hsome
        have hp : p < s.tokens.length := by
          by_contra hge
          rw [List.getElem?_append_right (Nat.le_of_not_lt hge), List.getElem?_replicate] at hsome
          split_ifs at hsome
          cases hsome
        rw [List.getElem?_append_left hp, h.place] at hsome
        rw [himage i hsome.1]
        exact hsome
      · rintro ⟨hi, rfl⟩
        rw [himage i hi]
        have hsome := (h.place _ i).mpr ⟨hi, rfl⟩
        rwa [List.getElem?_append_left (List.getElem?_eq_some_iff.mp hsome).1]
    · dsimp only
      rw [List.length_append, List.length_replicate, List.map_append, List.sum_append, h.length]
      simp [Nat.add_assoc]
    · intro p hp
      rcases List.mem_append.mp hp with hp | hp
      · exact h.before p hp
      · rw [List.mem_singleton.mp hp]
    · refine List.pairwise_append.mpr ⟨h.sorted, List.pairwise_singleton _ _, fun p hp q hq => ?_⟩
      rw [List.mem_singleton.mp hq]
      exact h.before p hp

/-- The loop has taken the groups `done`. -/
structure Laid (alignment n : ℕ) (first : TokenSpan) (done : List TokenSpan) (s : Aligning (Option ℕ)) : Prop where
  placed : Placed s
  cursor_le : s.cursor ≤ n
  aligned : alignment ∣ s.tokens.length
  groups : s.groups = done.map fun g =>
    ⟨image s.insertions g.begin', image s.insertions g.begin' + (g.end' - g.begin')⟩
  nonempty : ∀ g ∈ done, g.begin' < g.end'
  end_le : ∀ g ∈ done, g.end' ≤ s.cursor
  start : ∀ g ∈ done, alignment ∣ image s.insertions g.begin'
  /-- nothing is inserted into a group -/
  inside : ∀ g ∈ done, image s.insertions (g.end' - 1) = image s.insertions g.begin' + (g.end' - 1 - g.begin')
  ordered : done.Pairwise fun g h => g.end' ≤ h.begin'
  inserted : ∀ b c, (b, c) ∈ s.insertions ↔ c ≠ 0 ∧ (b = first.begin' ∧ c = padCount alignment first.begin' ∨
    ∃ g ∈ done, b = g.end' ∧ c = padCount alignment (g.end' - g.begin'))

theorem dvd_add_padCount (h : 0 < alignment) (size : ℕ) : alignment ∣ size + padCount alignment size := by
  have hlt := Nat.mod_lt size h
  unfold padCount
  rcases Nat.eq_zero_or_pos (size % alignment) with hzero | hpos
  · rw [hzero, Nat.sub_zero, Nat.mod_self]
    exact Nat.dvd_of_mod_eq_zero hzero
  · rw [Nat.mod_eq_of_lt (Nat.sub_lt h hpos)]
    refine ⟨size / alignment + 1, ?_⟩
    have hdiv := Nat.div_add_mod size alignment
    rw [Nat.mul_succ]
    omega

theorem padCount_eq_zero (h : 0 < alignment) {size : ℕ} : padCount alignment size = 0 ↔ alignment ∣ size := by
  constructor
  · intro hzero
    have hdvd := dvd_add_padCount h size
    rwa [hzero, Nat.add_zero] at hdvd
  · intro hdvd
    rw [padCount, Nat.mod_eq_zero_of_dvd hdvd, Nat.sub_zero, Nat.mod_self]

theorem padCount_add {size : ℕ} (h : alignment ∣ size) (k : ℕ) : padCount alignment (size + k) = padCount alignment k := by
  unfold padCount
  rw [Nat.add_mod, Nat.mod_eq_zero_of_dvd h, Nat.zero_add, Nat.mod_mod]

section Padding

variable {boundary count : ℕ}

theorem length_appendPadding : (s.appendPadding none boundary count).tokens.length = s.tokens.length + count := by
  unfold Aligning.appendPadding
  split_ifs with hcount
  · rw [hcount, Nat.add_zero]
  · rw [List.length_append, List.length_replicate]

theorem cursor_appendPadding : (s.appendPadding none boundary count).cursor = s.cursor := by
  unfold Aligning.appendPadding
  split_ifs <;> rfl

theorem groups_appendPadding : (s.appendPadding none boundary count).groups = s.groups := by
  unfold Aligning.appendPadding
  split_ifs <;> rfl

theorem mem_appendPadding {b c : ℕ} : (b, c) ∈ (s.appendPadding none boundary count).insertions ↔
    (b, c) ∈ s.insertions ∨ c ≠ 0 ∧ b = boundary ∧ c = count := by
  unfold Aligning.appendPadding
  split_ifs with hcount
  · subst hcount
    exact ⟨.inl, fun h => h.resolve_right fun hc => hc.1 hc.2.2⟩
  · rw [List.mem_append, List.mem_singleton, Prod.mk.injEq]
    refine or_congr_right ⟨fun h => ⟨h.2 ▸ hcount, h⟩, fun h => h.2⟩

theorem image_appendPadding {i : ℕ} (h : i < boundary) :
    image (s.appendPadding none boundary count).insertions i = image s.insertions i := by
  unfold Aligning.appendPadding
  split_ifs
  · rfl
  · exact congrArg (i + ·) (shift_concat_of_lt h)

end Padding

theorem u32_of_lt {k : ℕ} (h : k < 4294967296) : u32 k = k := Nat.mod_eq_of_lt h

/-- One group more. -/
theorem Laid.step (hpos : 0 < alignment) (h : Laid alignment n first done s)
    (hg : alignGroup alignment none (labels n) s g = .ok t) (hlt : t.tokens.length < 4294967296) :
    Laid alignment n first (done ++ [g]) t := by
  unfold alignGroup at hg
  dsimp only at hg
  split_ifs at hg with hbad
  rw [not_or, not_or, not_not] at hbad
  obtain ⟨hbegin, hne, hin⟩ := hbad
  rw [Nat.not_le] at hne
  rw [labels, List.length_map, List.length_range, Nat.not_lt] at hin
  have hcursor : s.cursor ≤ g.end' := hbegin ▸ hne.le
  -- The source tokens, then the padding.
  have hsource := h.placed.appendSource hcursor hin
  rw [hbegin] at hg
  generalize hu : s.appendSource (labels n) s.cursor g.end' = u at hsource hg
  have hinsertions : u.insertions = s.insertions := hu ▸ rfl
  have hend : u.cursor = g.end' := hu ▸ rfl
  have hlength : u.tokens.length = s.tokens.length + (g.end' - g.begin') := by
    rw [hsource.length, h.placed.length, hinsertions, hend]
    omega
  obtain rfl := Except.ok.inj hg
  rw [length_appendPadding] at hlt
  change u.tokens.length + _ < _ at hlt
  have hplaced : Placed { u with groups := u.groups ++ [(⟨u32 s.tokens.length, u32 u.tokens.length⟩ : TokenSpan)] } :=
    ⟨hsource.source, hsource.place, hsource.length, hsource.before, hsource.sorted⟩
  have hcount : padCount alignment u.tokens.length = padCount alignment (g.end' - g.begin') :=
    hlength ▸ padCount_add h.aligned _
  have himage : ∀ i < g.end', image (Aligning.appendPadding none g.end' (padCount alignment u.tokens.length)
      { u with groups := u.groups ++ [(⟨u32 s.tokens.length, u32 u.tokens.length⟩ : TokenSpan)] }).insertions i =
      image s.insertions i := fun i hi => (image_appendPadding hi).trans (by rw [hinsertions])
  have hfirst : image s.insertions g.begin' = s.tokens.length := by
    rw [h.placed.image_of_le hbegin.ge, hbegin, Nat.sub_self, Nat.add_zero]
  have holder : ∀ g' ∈ done, g'.begin' < g.end' ∧ g'.end' - 1 < g.end' := fun g' hg' => by
    have hle := h.end_le g' hg'
    have hlt' := h.nonempty g' hg'
    omega
  refine ⟨hend ▸ hplaced.appendPadding _, ?_, ?_, ?_, ?_, ?_, ?_, ?_, ?_, ?_⟩
  · rw [cursor_appendPadding]
    exact hend.trans_le hin
  · rw [length_appendPadding]
    exact dvd_add_padCount hpos _
  · rw [groups_appendPadding, List.map_append, List.map_singleton]
    show u.groups ++ _ = _
    have hgroups : u.groups = s.groups := hu ▸ rfl
    refine (congrArg (· ++ _) (hgroups.trans h.groups)).trans ?_
    congr 1
    · refine List.map_congr_left fun g' hg' => ?_
      rw [himage _ (holder g' hg').1]
    · rw [himage _ hne, hfirst, u32_of_lt (by omega), u32_of_lt (by omega), hlength]
  · intro g' hg'
    rcases List.mem_append.mp hg' with hg' | hg'
    · exact h.nonempty g' hg'
    · obtain rfl := List.mem_singleton.mp hg'
      exact hne
  · intro g' hg'
    rw [cursor_appendPadding]
    show g'.end' ≤ u.cursor
    rw [hend]
    rcases List.mem_append.mp hg' with hg' | hg'
    · exact (h.end_le g' hg').trans hcursor
    · rw [List.mem_singleton.mp hg']
  · intro g' hg'
    rcases List.mem_append.mp hg' with hg' | hg'
    · rw [himage _ (holder g' hg').1]
      exact h.start g' hg'
    · obtain rfl := List.mem_singleton.mp hg'
      rw [himage _ hne, hfirst]
      exact h.aligned
  · intro g' hg'
    rcases List.mem_append.mp hg' with hg' | hg'
    · rw [himage _ (holder g' hg').1, himage _ (holder g' hg').2]
      exact h.inside g' hg'
    · obtain rfl := List.mem_singleton.mp hg'
      rw [himage _ hne, himage _ (by omega), hfirst, h.placed.image_of_le (by omega)]
      omega
  · refine List.pairwise_append.mpr ⟨h.ordered, List.pairwise_singleton _ _, fun g' hg' k hk => ?_⟩
    rw [List.mem_singleton.mp hk, hbegin]
    exact h.end_le g' hg'
  · intro b c
    rw [mem_appendPadding, hcount]
    show (b, c) ∈ u.insertions ∨ _ ↔ _
    rw [hinsertions, h.inserted]
    simp only [List.mem_append, List.mem_singleton]
    constructor
    · rintro (⟨hc, hfirst' | ⟨g', hg', hold⟩⟩ | ⟨hc, hnew⟩)
      · exact ⟨hc, .inl hfirst'⟩
      · exact ⟨hc, .inr ⟨g', .inl hg', hold⟩⟩
      · exact ⟨hc, .inr ⟨g, .inr rfl, hnew⟩⟩
    · rintro ⟨hc, hfirst' | ⟨g', hg' | rfl, hold⟩⟩
      · exact .inl ⟨hc, .inl hfirst'⟩
      · exact .inl ⟨hc, .inr ⟨g', hg', hold⟩⟩
      · exact .inr ⟨hc, hold⟩

theorem length_le_of_alignGroup (hg : alignGroup alignment none (labels n) s g = .ok t) :
    s.tokens.length ≤ t.tokens.length := by
  unfold alignGroup at hg
  dsimp only at hg
  split_ifs at hg
  obtain rfl := Except.ok.inj hg
  rw [length_appendPadding]
  show _ ≤ (s.tokens ++ _).length + _
  rw [List.length_append, Nat.add_assoc]
  exact Nat.le_add_right _ _

theorem length_le_of_foldlM (hrun : l.foldlM (alignGroup alignment none (labels n)) s = .ok t) :
    s.tokens.length ≤ t.tokens.length := by
  induction l generalizing s with
  | nil =>
      obtain rfl := Except.ok.inj hrun
      exact le_rfl
  | cons g l ih =>
      rw [List.foldlM_cons] at hrun
      obtain ⟨u, hu, hrun⟩ := Except.bind_eq_ok.mp hrun
      exact (length_le_of_alignGroup hu).trans (ih hrun)

/-- All groups. -/
theorem Laid.run (hpos : 0 < alignment) (h : Laid alignment n first done s)
    (hrun : l.foldlM (alignGroup alignment none (labels n)) s = .ok t) (hlt : t.tokens.length < 4294967296) :
    Laid alignment n first (done ++ l) t := by
  induction l generalizing done s with
  | nil =>
      obtain rfl := Except.ok.inj hrun
      rwa [List.append_nil]
  | cons g l ih =>
      rw [List.foldlM_cons] at hrun
      obtain ⟨u, hu, hrun⟩ := Except.bind_eq_ok.mp hrun
      have hnext := ih (h.step hpos hu ((length_le_of_foldlM hrun).trans_lt hlt)) hrun
      rwa [List.append_assoc, List.singleton_append] at hnext

theorem laid_alignPrefix (hpos : 0 < alignment) (hfirst : first.begin' ≤ n) :
    Laid alignment n first [] (alignPrefix alignment none (labels n) first.begin') := by
  have hsource := placed_nil.appendSource (Nat.zero_le first.begin') hfirst
  have hlength : ((⟨[], [], [], 0⟩ : Aligning (Option ℕ)).appendSource (labels n) 0 first.begin').tokens.length =
      first.begin' := by
    rw [hsource.length]
    rfl
  unfold alignPrefix
  dsimp only
  refine ⟨hsource.appendPadding _, ?_, ?_, ?_, by simp, by simp, by simp, by simp, .nil, ?_⟩
  · rw [cursor_appendPadding]
    exact hfirst
  · rw [length_appendPadding]
    exact dvd_add_padCount hpos _
  · exact groups_appendPadding
  · intro b c
    rw [mem_appendPadding, hlength]
    simp [Aligning.appendSource]

/-- The tokens behind the last group as well. -/
theorem laid_of_alignTokens (hpos : 0 < alignment)
    (h : alignTokens alignment none (labels n) first rest = .ok t) (hlt : t.tokens.length < 4294967296) :
    Placed t ∧ t.cursor = n ∧ ∃ s, Laid alignment n first (first :: rest) s ∧ t.insertions = s.insertions ∧
      t.groups = s.groups := by
  obtain ⟨s, hs, hreturn⟩ := Except.bind_eq_ok.mp h
  obtain rfl := Except.ok.inj hreturn
  rw [labels, List.length_map, List.length_range] at hlt ⊢
  have hlength : s.tokens.length < 4294967296 := by
    refine lt_of_le_of_lt ?_ hlt
    show _ ≤ (s.tokens ++ _).length
    rw [List.length_append]
    exact Nat.le_add_right _ _
  have hfirst : first.begin' ≤ n := by
    obtain ⟨u, hu, -⟩ := Except.bind_eq_ok.mp (List.foldlM_cons.symm.trans hs)
    unfold alignGroup at hu
    split_ifs at hu with hbad
    rw [labels, List.length_map, List.length_range] at hbad
    omega
  have hlaid := (laid_alignPrefix hpos hfirst).run hpos hs hlength
  exact ⟨hlaid.placed.appendSource hlaid.cursor_le le_rfl, rfl, s, hlaid, rfl, rfl⟩

end Invariant

/-! ## The coordinates -/

/-- Padding is inserted at a boundary. -/
def PaddedAt (alignment : ℕ) (groups : List TokenSpan) (b : ℕ) : Prop :=
  (∃ g ∈ groups.head?, b = g.begin' ∧ ¬ alignment ∣ g.begin') ∨
    ∃ g ∈ groups, b = g.end' ∧ ¬ alignment ∣ g.end' - g.begin'

/-- The first and the last token of the span are those of the original one. -/
def Designates (from' : List (Option ℕ)) (s s' : TokenSpan) : Prop :=
  s.begin' < s.end' → s'.begin' < s'.end' ∧ from'[s'.begin']? = some (some s.begin') ∧
    from'[s'.end' - 1]? = some (some (s.end' - 1))

/-- What the padding is to keep; `from'` says where each padded token came from. -/
structure KeepsCoordinates (alignment : ℕ) (newline : ℤ) (from' : List (Option ℕ)) (options : GenerationOptions)
    (prompt : List ℤ) (options' : GenerationOptions) (prompt' : List ℤ) : Prop where
  tokens : prompt' = from'.map fun o => o.elim newline fun i => prompt.getD i 0
  /-- without the inserted tokens the prompt is left -/
  deleted : from'.reduceOption = List.range prompt.length
  groups : List.Forall₂ (fun g g' => alignment ∣ g'.begin' ∧
    slice from' g'.begin' g'.end' = (List.range' g.begin' (g.end' - g.begin')).map some)
    options.retrievalGroupSpans options'.retrievalGroupSpans
  exclusive : ∀ p q i j : ℕ, from'[p]? = some (some i) → from'[q]? = some (some j) → p / alignment = q / alignment →
    ∀ (a b : ℕ) (g h : TokenSpan), options.retrievalGroupSpans[a]? = some g → options.retrievalGroupSpans[b]? = some h →
      g.begin' ≤ i → i < g.end' → h.begin' ≤ j → j < h.end' → a = b
  query : Designates from' options.query options'.query
  context : Designates from' options.context options'.context
  replay : Designates from' options.replay options'.replay
  pinned : List.Forall₂ (Designates from') options.pinnedTokenSpans options'.pinnedTokenSpans

/-- No padding at the end of the spans that are carried along, and none before the end of
those that are not. -/
structure Undisturbed (alignment : ℕ) (options : GenerationOptions) : Prop where
  query : options.query.begin' < options.query.end' →
    ¬ PaddedAt alignment options.retrievalGroupSpans options.query.end'
  context : options.context.begin' < options.context.end' →
    ¬ PaddedAt alignment options.retrievalGroupSpans options.context.end'
  replay : options.replay.begin' < options.replay.end' →
    ∀ b < options.replay.end', ¬ PaddedAt alignment options.retrievalGroupSpans b
  pinned : ∀ pin ∈ options.pinnedTokenSpans, pin.begin' < pin.end' →
    ∀ b < pin.end', ¬ PaddedAt alignment options.retrievalGroupSpans b

section Coordinates

variable {alignment n : ℕ} {s t : Aligning (Option ℕ)} {first x x' : TokenSpan} {rest done : List TokenSpan}

/-- Padding is where the loop put it. -/
theorem Laid.paddedAt_iff (hpos : 0 < alignment) (h : Laid alignment n first (first :: rest) s) (b : ℕ) :
    PaddedAt alignment (first :: rest) b ↔ ∃ p ∈ s.insertions, p.1 = b ∧ p.2 ≠ 0 := by
  have hpad : ∀ k : ℕ, ¬ alignment ∣ k ↔ padCount alignment k ≠ 0 := fun k => (padCount_eq_zero hpos).not.symm
  constructor
  · rintro (⟨g, hg, rfl, hk⟩ | ⟨g, hg, rfl, hk⟩)
    · obtain rfl := Option.some.inj hg
      exact ⟨(_, _), (h.inserted _ _).mpr ⟨(hpad _).mp hk, .inl ⟨rfl, rfl⟩⟩, rfl, (hpad _).mp hk⟩
    · exact ⟨(_, _), (h.inserted _ _).mpr ⟨(hpad _).mp hk, .inr ⟨g, hg, rfl, rfl⟩⟩, rfl, (hpad _).mp hk⟩
  · rintro ⟨⟨b, c⟩, hp, rfl, hc⟩
    obtain ⟨-, ⟨rfl, rfl⟩ | ⟨g, hg, rfl, rfl⟩⟩ := (h.inserted b c).mp hp
    · exact .inl ⟨first, rfl, rfl, (hpad _).mpr hc⟩
    · exact .inr ⟨g, hg, rfl, (hpad _).mpr hc⟩

theorem Placed.designates_iff (h : Placed t) (hx : x.begin' < x.end') (hend : x.end' ≤ t.cursor) :
    Designates t.tokens x x' ↔
      x'.begin' = image t.insertions x.begin' ∧ x'.end' = image t.insertions (x.end' - 1) + 1 := by
  have hmono : image t.insertions x.begin' ≤ image t.insertions (x.end' - 1) :=
    image_strictMono.monotone (by omega)
  constructor
  · intro hdes
    obtain ⟨hne, hfirst, hlast⟩ := hdes hx
    have hbegin := ((h.place _ _).mp hfirst).2
    have hlast' := ((h.place _ _).mp hlast).2
    exact ⟨hbegin, by omega⟩
  · rintro ⟨hbegin, hlast⟩ -
    refine ⟨by omega, (h.place _ _).mpr ⟨by omega, hbegin⟩, (h.place _ _).mpr ⟨by omega, by omega⟩⟩

/-- A span that is carried along. -/
theorem Laid.designates_mapped (hpos : 0 < alignment) (h : Laid alignment n first (first :: rest) s) (ht : Placed t)
    (hinsertions : t.insertions = s.insertions) (hend : x.end' ≤ t.cursor) (hmap : mapSpan t.insertions x = .ok x') :
    Designates t.tokens x x' ↔ (x.begin' < x.end' → ¬ PaddedAt alignment (first :: rest) x.end') := by
  by_cases hx : x.begin' < x.end'
  · have hx' : x' = ⟨image t.insertions x.begin', image t.insertions x.end'⟩ := by
      have hboundary : ∀ {i j : ℕ}, mapBoundaryAfterPadding t.insertions i = .ok j → j = image t.insertions i := by
        intro i j hij
        unfold mapBoundaryAfterPadding at hij
        dsimp only at hij
        split_ifs at hij
        exact (Except.ok.inj hij).symm
      rw [mapSpan, if_pos hx] at hmap
      obtain ⟨b, hb, hmap⟩ := Except.bind_eq_ok.mp hmap
      obtain ⟨e, he, hmap⟩ := Except.bind_eq_ok.mp hmap
      rw [← hboundary hb, ← hboundary he]
      exact (Except.ok.inj hmap).symm
    have hshift := shift_eq_iff (i := x.end' - 1) ht.sorted (Nat.sub_le x.end' 1)
    rw [ht.designates_iff hx hend, hx', h.paddedAt_iff hpos, ← hinsertions]
    simp only [hx, true_and, forall_const]
    have heq : image t.insertions x.end' = image t.insertions (x.end' - 1) + 1 ↔
        shift t.insertions (x.end' - 1) = shift t.insertions x.end' := by
      unfold image
      omega
    rw [heq, hshift]
    constructor
    · rintro hall ⟨p, hp, hb, hc⟩
      exact hc (hall p hp (by omega) hb.le)
    · intro hnone p hp hlt hle
      by_contra hc
      exact hnone ⟨p, hp, by omega, hc⟩
  · exact ⟨fun _ hlt => absurd hlt hx, fun _ hlt => absurd hlt hx⟩

/-- A span that is left as it is. -/
theorem Laid.designates_left (hpos : 0 < alignment) (h : Laid alignment n first (first :: rest) s) (ht : Placed t)
    (hinsertions : t.insertions = s.insertions) (hend : x.end' ≤ t.cursor) :
    Designates t.tokens x x ↔ (x.begin' < x.end' → ∀ b < x.end', ¬ PaddedAt alignment (first :: rest) b) := by
  by_cases hx : x.begin' < x.end'
  · have hmono : shift t.insertions x.begin' ≤ shift t.insertions (x.end' - 1) := shift_mono (by omega)
    have heq : x.begin' = image t.insertions x.begin' ∧ x.end' = image t.insertions (x.end' - 1) + 1 ↔
        shift t.insertions (x.end' - 1) = 0 := by
      unfold image
      omega
    rw [ht.designates_iff hx hend, heq, shift_eq_zero_iff ht.sorted]
    simp only [hx, forall_const, h.paddedAt_iff hpos, ← hinsertions]
    constructor
    · rintro hall b hb ⟨p, hp, rfl, hc⟩
      exact hc (hall p hp (by omega))
    · intro hnone p hp hle
      by_contra hc
      exact hnone p.1 (by omega) ⟨p, hp, rfl, hc⟩
  · exact ⟨fun _ hlt => absurd hlt hx, fun _ hlt => absurd hlt hx⟩

/-- A group is where it was put, and nothing else is there. -/
theorem Laid.slice_group (h : Laid alignment n first done s) (ht : Placed t) (hcursor : s.cursor ≤ t.cursor)
    (hinsertions : t.insertions = s.insertions) {g : TokenSpan} (hg : g ∈ done) :
    slice t.tokens (image t.insertions g.begin') (image t.insertions g.begin' + (g.end' - g.begin')) =
      (List.range' g.begin' (g.end' - g.begin')).map some := by
  have hne := h.nonempty g hg
  have hend := h.end_le g hg
  have hinside := h.inside g hg
  rw [← hinsertions] at hinside
  -- The last token is as far from the first as it was, so each between them is.
  have heach : ∀ k < g.end' - g.begin', t.tokens[image t.insertions g.begin' + k]? = some (some (g.begin' + k)) := by
    intro k hk
    have hmono : shift t.insertions g.begin' ≤ shift t.insertions (g.begin' + k) := shift_mono (by omega)
    have hmono' : shift t.insertions (g.begin' + k) ≤ shift t.insertions (g.end' - 1) := shift_mono (by omega)
    refine (ht.place _ _).mpr ⟨by omega, ?_⟩
    unfold image at hinside ⊢
    omega
  unfold slice
  rw [Nat.add_sub_cancel_left]
  refine List.ext_getElem? fun k => ?_
  rw [List.getElem?_take, List.getElem?_drop]
  split_ifs with hk
  · rw [heach k hk, List.getElem?_map, List.getElem?_range' hk, Nat.one_mul]
    rfl
  · rw [List.getElem?_eq_none (by rw [List.length_map, List.length_range']; omega)]

/-- Between tokens of two groups a block begins. -/
theorem Laid.exclusive (hpos : 0 < alignment) (h : Laid alignment n first done s) (ht : Placed t)
    (hinsertions : t.insertions = s.insertions) {p q i j : ℕ} (hi : t.tokens[p]? = some (some i))
    (hj : t.tokens[q]? = some (some j)) {a b : ℕ} {g k : TokenSpan} (ha : done[a]? = some g) (hb : done[b]? = some k)
    (hig : i < g.end') (hjk : k.begin' ≤ j) (hab : a < b) : p / alignment < q / alignment := by
  have hp := ((ht.place p i).mp hi).2
  have hq := ((ht.place q j).mp hj).2
  obtain ⟨halt, rfl⟩ := List.getElem?_eq_some_iff.mp ha
  obtain ⟨hblt, rfl⟩ := List.getElem?_eq_some_iff.mp hb
  have hordered : done[a].end' ≤ done[b].begin' := List.pairwise_iff_getElem.mp h.ordered a b halt hblt hab
  obtain ⟨m, hm⟩ := h.start _ (List.getElem_mem hblt)
  rw [← hinsertions] at hm
  have hlt : p < alignment * m := by
    rw [hp, ← hm]
    exact image_strictMono (hig.trans_le hordered)
  have hle : alignment * m ≤ q := by
    rw [hq, ← hm]
    exact image_strictMono.monotone hjk
  calc p / alignment < m := Nat.div_lt_of_lt_mul hlt
    _ ≤ q / alignment := (Nat.le_div_iff_mul_le hpos).mpr (Nat.mul_comm alignment m ▸ hle)

end Coordinates

/-- What a request that was not refused was checked for. -/
theorem roundPadding_ok {request : Request} {tokenizer : UsageTokenizer} {options options' : GenerationOptions}
    {prompt prompt' : List ℤ} (h : roundPadding request tokenizer options prompt = .ok (options', prompt')) :
    ∃ (alignment : ℕ) (newline : ℤ) (first : TokenSpan) (rest : List TokenSpan) (s : Aligning ℤ),
      request.roundPadding = some (alignment : ℤ) ∧ 0 < alignment ∧ tokenizer.encode [10] = [newline] ∧
      options.retrievalGroupSpans = first :: rest ∧
      alignTokens alignment newline prompt first rest = .ok s ∧ s.tokens.length < 4294967296 ∧
      mapSpan s.insertions options.query = .ok options'.query ∧
      mapSpan s.insertions options.context = .ok options'.context ∧
      options'.replay = options.replay ∧ options'.pinnedTokenSpans = options.pinnedTokenSpans ∧
      options'.retrievalGroupSpans = s.groups ∧ prompt' = s.tokens := by
  unfold roundPadding at h
  split at h
  · cases h
  rename_i requested hrequested
  split at h
  · cases h
  rename_i hrange
  split at h
  · cases h
  rename_i first rest hgroups
  split at h
  · cases h
  split at h
  · cases h
  split at h
  · cases h
  split at h
  · rename_i newline hnewline
    split_ifs at h
    unfold padded at h
    obtain ⟨s, hs, h⟩ := Except.bind_eq_ok.mp h
    obtain ⟨query, hquery, h⟩ := Except.bind_eq_ok.mp h
    obtain ⟨context, hcontext, h⟩ := Except.bind_eq_ok.mp h
    dsimp only at h
    split_ifs at h with hlimit
    · cases h
    · obtain ⟨rfl, rfl⟩ := Prod.mk.inj (Except.ok.inj h)
      have hlimit' := request.limit_le
      refine ⟨requested.toNat, newline, first, rest, s, ?_, by omega, hnewline, hgroups, hs, by omega, hquery, hcontext,
        rfl, rfl, rfl, rfl⟩
      rw [hrequested, Int.toNat_of_nonneg (by omega)]
  · cases h

/-- `newline_token`. -/
def UsageTokenizer.newline (tokenizer : UsageTokenizer) : ℤ := (tokenizer.encode [10]).headD 0

def Request.alignment (request : Request) : ℕ := (request.roundPadding.getD 0).toNat

/-- The spans beside the groups. -/
def GenerationOptions.spans (options : GenerationOptions) : List TokenSpan :=
  options.query :: options.context :: options.replay :: options.pinnedTokenSpans

/-- **When padding keeps the coordinates.**  The prompt comes back when the newlines are
deleted, and the groups are exactly where they should be; the other spans are, if and only
if no padding is inserted at the end of the query or of the context, nor before the end of
the replay interval or of a pinned span. -/
theorem roundPadding_iff {request : Request} {tokenizer : UsageTokenizer} {options options' : GenerationOptions}
    {prompt prompt' : List ℤ} (h : roundPadding request tokenizer options prompt = .ok (options', prompt'))
    (hspans : ∀ x ∈ options.spans, x.end' ≤ prompt.length) :
    KeepsCoordinates request.alignment tokenizer.newline
      (origins request.alignment prompt.length options.retrievalGroupSpans) options prompt options' prompt' ↔
      Undisturbed request.alignment options := by
  obtain ⟨alignment, newline, first, rest, s, halignment, hpos, hnewline, hgroups, hs, hlt, hquery, hcontext, hreplay,
    hpinned, hgroups', rfl⟩ := roundPadding_ok h
  rw [Request.alignment, halignment, Option.getD_some, Int.toNat_natCast, UsageTokenizer.newline, hnewline,
    List.headD_cons, hgroups]
  -- The run on the indices.
  have hlabels : (labels prompt.length).map (fun o => o.elim newline fun i => prompt.getD i 0) = prompt := by
    rw [labels, List.map_map]
    refine List.ext_getElem (by simp) fun i hi hi' => ?_
    simp [List.getD_eq_getElem?_getD, hi']
  have hmap := alignTokens_map (fun o : Option ℕ => o.elim newline fun i => prompt.getD i 0) alignment none
    (labels prompt.length) first rest
  rw [hlabels] at hmap
  obtain ⟨t, ht, hst⟩ := Except.map_eq_ok.mp (hmap.symm.trans hs)
  have hinsertions : s.insertions = t.insertions := hst ▸ rfl
  have horigins : origins alignment prompt.length (first :: rest) = t.tokens := by
    rw [origins, ht]
  have hlength : t.tokens.length < 4294967296 := by
    rw [← hst] at hlt
    exact (List.length_map _).symm.trans_lt hlt
  obtain ⟨hplaced, hcursor, u, hlaid, htu, hgroupsu⟩ := laid_of_alignTokens hpos ht hlength
  rw [horigins]
  rw [hinsertions] at hquery hcontext
  have hend : ∀ x ∈ options.spans, x.end' ≤ t.cursor := fun x hx => (hspans x hx).trans hcursor.ge
  have hqueryIff := hlaid.designates_mapped hpos hplaced htu (hend _ (by simp [GenerationOptions.spans])) hquery
  have hcontextIff := hlaid.designates_mapped hpos hplaced htu (hend _ (by simp [GenerationOptions.spans])) hcontext
  have hreplayIff := hlaid.designates_left hpos hplaced htu (hend options.replay (by simp [GenerationOptions.spans]))
  have hpinnedIff := fun pin (hpin : pin ∈ options.pinnedTokenSpans) =>
    hlaid.designates_left hpos hplaced htu (hend pin (by simp [GenerationOptions.spans, hpin]))
  constructor
  · intro hkeeps
    have hpins := hpinned ▸ hkeeps.pinned
    constructor
    · rw [hgroups]
      exact hqueryIff.mp hkeeps.query
    · rw [hgroups]
      exact hcontextIff.mp hkeeps.context
    · rw [hgroups]
      exact hreplayIff.mp (hreplay ▸ hkeeps.replay)
    · rw [hgroups]
      exact fun pin hpin => (hpinnedIff pin hpin).mp (List.forall₂_same.mp hpins pin hpin)
  · rintro ⟨hq, hc, hr, hp⟩
    rw [hgroups] at hq hc hr hp
    refine ⟨hst ▸ rfl, hcursor ▸ hplaced.source, ?_, ?_, hqueryIff.mpr hq, hcontextIff.mpr hc,
      hreplay ▸ hreplayIff.mpr hr, ?_⟩
    · have hsgroups : s.groups = t.groups := hst ▸ rfl
      rw [hgroups, hgroups', hsgroups, hgroupsu, hlaid.groups, List.forall₂_map_right_iff, List.forall₂_same, ← htu]
      intro g hg
      refine ⟨htu ▸ hlaid.start g hg, hlaid.slice_group hplaced ?_ htu hg⟩
      exact hlaid.cursor_le.trans hcursor.ge
    · rw [hgroups]
      intro p q i j hi hj hblock a b g k ha hb hgi hig hkj hjk
      rcases lt_trichotomy a b with hlt | heq | hgt
      · exact absurd hblock (hlaid.exclusive hpos hplaced htu hi hj ha hb hig hkj hlt).ne
      · exact heq
      · exact absurd hblock (hlaid.exclusive hpos hplaced htu hj hi hb ha hjk hgi hgt).ne'
    · rw [hpinned]
      exact List.forall₂_same.mpr fun pin hpin => (hpinnedIff pin hpin).mpr (hp pin hpin)

/-- A server with blocks of two tokens. -/
def pairRequest : Request := ⟨some 2, true, false, 2, 0, 100, by decide⟩

/-- A newline is the token `7`. -/
def newlineTokenizer : UsageTokenizer := ⟨fun _ => [7], fun _ => [10]⟩

/-- A control prefix that is pinned, one round of a token, then the query, which is replayed. -/
def oneRound : GenerationOptions where
  query := ⟨3, 5⟩
  context := ⟨2, 3⟩
  replay := ⟨3, 5⟩
  retrievalGroupSpans := [⟨2, 3⟩]
  pinnedTokenSpans := [⟨0, 2⟩]
  maxTokens := 10
  promptTokenIdsOverride := []

/-- The token that is replayed first is a newline. -/
theorem replay_displaced : ∃ options' prompt',
    roundPadding pairRequest newlineTokenizer oneRound [1, 2, 4, 5, 6] = .ok (options', prompt') ∧
      prompt' = [1, 2, 4, 7, 5, 6] ∧ ¬ KeepsCoordinates 2 7 (origins 2 5 oneRound.retrievalGroupSpans) oneRound
        [1, 2, 4, 5, 6] options' prompt' := by
  refine ⟨_, _, rfl, rfl, fun hkeeps => ?_⟩
  have hreplay := (hkeeps.replay (by decide)).2.1
  exact absurd hreplay (by decide)

/-- Two rounds, the first of one token; the query after both. -/
def twoRounds : GenerationOptions where
  query := ⟨3, 4⟩
  context := ⟨1, 3⟩
  replay := ⟨0, 1⟩
  retrievalGroupSpans := [⟨0, 1⟩, ⟨1, 3⟩]
  pinnedTokenSpans := [⟨0, 1⟩]
  maxTokens := 10
  promptTokenIdsOverride := []

/-- The first round is padded, behind what is pinned and replayed and before what is asked. -/
theorem undisturbed_twoRounds : Undisturbed pairRequest.alignment twoRounds := by
  have hpadded : ∀ b, PaddedAt pairRequest.alignment twoRounds.retrievalGroupSpans b → b = 1 := by
    rintro b (⟨g, hg, rfl, hk⟩ | ⟨g, hg, rfl, hk⟩)
    · obtain rfl := Option.some.inj hg
      exact absurd hk (by decide)
    · rcases List.mem_cons.mp hg with rfl | hg
      · rfl
      · rcases List.mem_singleton.mp hg with rfl
        exact absurd hk (by decide)
  refine ⟨fun _ h => ?_, fun _ h => ?_, fun _ b hb h => ?_, fun pin hpin _ b hb h => ?_⟩
  · exact absurd (hpadded _ h) (by decide)
  · exact absurd (hpadded _ h) (by decide)
  · rw [hpadded b h] at hb
    exact absurd hb (by decide)
  · rcases List.mem_singleton.mp hpin with rfl
    rw [hpadded b h] at hb
    exact absurd hb (by decide)

/-- A newline is inserted, and the coordinates are kept. -/
theorem roundPadding_iff_two : ∃ options',
    roundPadding pairRequest newlineTokenizer twoRounds [4, 5, 6, 8] = .ok (options', [4, 7, 5, 6, 8]) ∧
      KeepsCoordinates pairRequest.alignment newlineTokenizer.newline
        (origins pairRequest.alignment [(4 : ℤ), 5, 6, 8].length twoRounds.retrievalGroupSpans) twoRounds [4, 5, 6, 8]
        options' [4, 7, 5, 6, 8] := by
  have hpadded : roundPadding pairRequest newlineTokenizer twoRounds [4, 5, 6, 8] = .ok (_, [4, 7, 5, 6, 8]) := rfl
  exact ⟨_, hpadded, (roundPadding_iff hpadded (by decide)).mpr undisturbed_twoRounds⟩

end Qw3.Policy.RoundPadding
