import Qw3.Chat.QuerySpan

/-!
# Where the comparison of two prompts is right

The tokens of the query are found right or wrong by how the texts of the prompt meet: here for
every request whose designated text can be taken out of its prompt without a change elsewhere.

## Main definitions

* `Server.Normalizes` — what a text is normalized to, piece by piece.
* `Parting` — the prompt in three texts: what stands before, the stretch around the designated
  text, and what stands behind; each with its own tokens, and what remains of the stretch in the
  second rendering.
* `Parting.Shows` — the stretch begins and ends otherwise than what stands in its place.

## Main results

* `Parting.view_eq` — the prompts and the spans of a request in terms of its texts.
* `Parting.carries_first`, `Parting.carries_last`, `Parting.covers` — the tokens of the stretch
  are those that the interval is to have.
* `queryInterval_covers_iff` — **the interval covers the query just when the stretch shows**;
  a range behind a message of another role never has its first token.
* `range_slides` — of two questions the first.

## Design notes

A designated text need not begin or end where a token does, so the stretch is longer than the text
where its first or last token is (`pre`, `post`), and something of it may remain in the second
prompt.  In the common case, a content between its frames or whole messages, nothing does: then
the stretch shows just when it does not begin with the token with which the text behind it begins.
For a range of messages the two are always the same, `<|im_start|>`.

A request is not parted where the second rendering differs elsewhere too: where a tool's message
that is taken out would have merged its neighbours, where the reasoning of another message is
framed or not by what the last question is, or where without the text a merge reaches further
than its own tokens did.
-/

namespace Qw3.Chat

open Qw3.Stream Qw3.Harness Qw3.ToolCalls Qw3.Alignment Text

/-! ## The normal form of a prompt -/

/-- What a text is normalized to, piece by piece: by its clusters, or as it is. -/
structure Server.Normalizes (S : Server) (text : Tokenizer.Bytes) (L : Pieces Tokenizer.Byte) : Prop where
  image : Tokenizer.qwenNormalizeUtf8 S.nfc text = .ok (Pieces.image L)
  source : Pieces.source L = text
  nonempty : ∀ p ∈ L, p.1 ≠ []
  pieces : (∀ p ∈ L, p.1 = p.2) ∨
    Pieces.image L ≠ text ∧ Tokenizer.normalizedClusters S.nfc S.utf8proc text = .ok L

section Normal

variable {S : Server} {text : Tokenizer.Bytes} {L : Pieces Tokenizer.Byte} {spans : List Tokenizer.TextByteSpan}
  {n : Tokenizer.NormalizedByteSpans}

/-- Spans that are carried at all are spans of the text. -/
theorem in_of_normalizeByteSpans {nfc : Tokenizer.Nfc} {u : Tokenizer.Utf8proc}
    (h : Tokenizer.normalizeByteSpans nfc u text spans = .ok n) : ∀ s ∈ spans, s.In text.length := by
  unfold Tokenizer.normalizeByteSpans at h
  cases hwhole : Tokenizer.qwenNormalizeUtf8 nfc text with
  | error what =>
      rw [hwhole] at h
      cases h
  | ok normalized =>
      rw [hwhole] at h
      dsimp only at h
      by_cases hout : ∃ s ∈ spans, s.end' < s.begin' ∨ text.length < s.end'
      · rw [if_pos hout] at h
        cases h
      · intro s hs
        by_contra hnot
        refine hout ⟨s, hs, ?_⟩
        unfold Tokenizer.TextByteSpan.In at hnot
        omega

/-- The spans are carried over the pieces. -/
theorem Server.Normalizes.spans_eq (hL : S.Normalizes text L)
    (h : Tokenizer.normalizeByteSpans S.nfc S.utf8proc text spans = .ok n) :
    n.spans = spans.map (Tokenizer.TextByteSpan.carry L) := by
  have hin := in_of_normalizeByteSpans h
  rcases hL.pieces with hsame | ⟨hne, hclusters⟩
  · -- nothing is changed, and the spans are left as they are
    have himage : Pieces.image L = text := by
      rw [← hL.source]
      unfold Pieces.image Pieces.source
      exact congrArg List.flatten (List.map_congr_left fun p hp => (hsame p hp).symm)
    have hwhole := hL.image
    rw [himage] at hwhole
    rw [Tokenizer.normalizeByteSpans_unchanged hin hwhole] at h
    rw [← Except.ok.inj h]
    refine (List.map_id spans).symm.trans (List.map_congr_left fun s hs => ?_)
    obtain ⟨hle, hend⟩ := hin s hs
    rw [← hL.source] at hend
    unfold Tokenizer.TextByteSpan.carry
    rw [Pieces.carry_same hsame (hle.trans hend), Pieces.carry_same hsame hend]
    obtain ⟨from', to'⟩ := s
    dsimp only [id_eq]
    split_ifs with hempty
    · rw [hempty]
    · rfl
  · obtain ⟨rounded, hout⟩ := Tokenizer.normalizeByteSpans_changed hin hclusters hL.image hne
    rw [hout] at h
    rw [← Except.ok.inj h]

end Normal

/-! ## The texts of a prompt -/

/-- **The prompt of a request in three texts.** The stretch is the designated text with what its
first and its last token have of the text around it; without the designated text `pre` and `post`
remain of it.  What stands before and behind is the same in both prompts, and so are its tokens. -/
structure Parting (S : Server) (messages : List Json) (d : Designation) where
  query : Query
  marked : Rendered Marked
  twin : Rendered UInt8
  (before pre text post after : Bytes)
  (kept own remains rest : List ℤ)
  (normalBefore normalPre normalText normalPost normalAfter : Pieces Tokenizer.Byte)
  -- the renderings
  designates : designate S messages d = .ok (some query)
  renders : renderMessages S.lib S.options (query.marked (chat S.lib messages)) = .ok marked
  renders_twin : renderMessages S.lib S.options (query.twin (chat S.lib messages)) = .ok twin
  prompt : toBytes marked.prompt = before ++ (pre ++ text ++ post) ++ after
  prompt_twin : twin.prompt = before ++ (pre ++ post) ++ after
  designated : ∀ s, s ∈ designatedBytes query marked ↔
    ∃ j < text.length, s = ⟨(before ++ pre).length + j, (before ++ pre).length + (j + 1)⟩
  others : ∀ s ∈ otherSegments query marked,
    s.begin' ≤ s.end' ∧ (s.end' ≤ before.length ∨ (before ++ (pre ++ text ++ post)).length ≤ s.begin')
  -- the tokens
  encodes_before : S.encode before = .ok kept
  encodes_own : stretchIds S.tokenizer S.nfc S.classes (wire (pre ++ text ++ post)) = .ok own
  encodes_remains : stretchIds S.tokenizer S.nfc S.classes (wire (pre ++ post)) = .ok remains
  encodes_after : stretchIds S.tokenizer S.nfc S.classes (wire after) = .ok rest
  encodes : S.encode (before ++ (pre ++ text ++ post) ++ after) = .ok (kept ++ own ++ rest)
  encodes_twin : S.encode (before ++ (pre ++ post) ++ after) = .ok (kept ++ remains ++ rest)
  -- the normal forms
  normalizes : S.Normalizes (wire (before ++ (pre ++ text ++ post) ++ after))
    (normalBefore ++ (normalPre ++ normalText ++ normalPost) ++ normalAfter)
  source_before : Pieces.source normalBefore = wire before
  source_pre : Pieces.source normalPre = wire pre
  source_text : Pieces.source normalText = wire text
  source_post : Pieces.source normalPost = wire post
  decodes_kept : S.tokenizer.decode kept = Pieces.image normalBefore
  decodes_own : S.tokenizer.decode own = Pieces.image (normalPre ++ normalText ++ normalPost)
  -- the first and the last token of the stretch are tokens of the text
  text_ne_nil : Pieces.image normalText ≠ []
  opens : (Pieces.image normalPre).length < (S.tokenizer.decode (own.take 1)).length
  closes : (S.tokenizer.decode own.dropLast).length < (Pieces.image (normalPre ++ normalText)).length

/-- The end of the interval is found: the tokens that remain do not end as the stretch does, or
none remain, where they are counted. -/
def Designation.EndShows (own remains : List ℤ) : Designation → Prop
  | .finalUser => remains = []
  | _ => own.getLast? ≠ remains.getLast?

section Stretch

variable {kept own remains rest : List ℤ}

theorem front_stretch (kept own remains rest : List ℤ) :
    front (kept ++ own ++ rest) (kept ++ remains ++ rest) =
      kept.length + front (own ++ rest) (remains ++ rest) := by
  rw [List.append_assoc, List.append_assoc, front_append_left]

theorem front_stretch_eq_zero_iff (hown : own ≠ []) :
    front (own ++ rest) (remains ++ rest) = 0 ↔ own.head? ≠ (remains ++ rest).head? := by
  rw [front_eq_zero_iff (List.append_ne_nil_of_left_ne_nil hown rest), List.head?_append_of_ne_nil _ hown]

/-- What the prompts have in common at the end goes into the stretch where it ends as what remains
of it. -/
theorem back_stretch (hzero : front (own ++ rest) (remains ++ rest) = 0) :
    back (kept ++ own ++ rest) (kept ++ remains ++ rest) = rest.length + front own.reverse remains.reverse := by
  rw [List.append_assoc, List.append_assoc, back_append hzero, List.reverse_append, List.reverse_append,
    front_append_left, List.length_reverse]

theorem length_stretch (kept own rest : List ℤ) :
    (kept ++ own ++ rest).length = kept.length + own.length + rest.length := by
  rw [List.length_append, List.length_append]

/-- The stretch, compared from both ends. -/
theorem comparedInterval_stretch {interval : ℕ × ℕ} (hown : own ≠ [])
    (h : interval = comparedInterval (kept ++ own ++ rest) (kept ++ remains ++ rest)) :
    ((interval.1 ≤ kept.length ∧ kept.length + own.length ≤ interval.2) ↔
      own.head? ≠ (remains ++ rest).head? ∧ own.getLast? ≠ remains.getLast?) ∧
    (own.head? ≠ (remains ++ rest).head? ∧ own.getLast? ≠ remains.getLast? →
      interval = (kept.length, kept.length + own.length)) := by
  have hpos : 0 < own.length := List.length_pos_iff.mpr hown
  have hclose : front own.reverse remains.reverse = 0 ↔ own.getLast? ≠ remains.getLast? := by
    rw [front_eq_zero_iff (List.reverse_ne_nil_iff.mpr hown), List.head?_reverse, List.head?_reverse]
  have hle : front own.reverse remains.reverse ≤ own.length :=
    (front_le_left _ _).trans_eq (List.length_reverse)
  subst h
  unfold comparedInterval
  rw [← front_stretch_eq_zero_iff hown, ← hclose, front_stretch, length_stretch]
  dsimp only
  by_cases hzero : front (own ++ rest) (remains ++ rest) = 0
  · rw [back_stretch hzero, hzero]
    refine ⟨by omega, fun hshow => Prod.ext rfl ?_⟩
    dsimp only
    omega
  · exact ⟨by omega, fun hshow => absurd hshow.1 hzero⟩

/-- The stretch, its tokens counted. -/
theorem countedInterval_stretch {interval : ℕ × ℕ} (hown : own ≠ [])
    (h : interval = countedInterval (kept ++ own ++ rest) (kept ++ remains ++ rest)) :
    ((interval.1 ≤ kept.length ∧ kept.length + own.length ≤ interval.2) ↔
      own.head? ≠ (remains ++ rest).head? ∧ remains = []) ∧
    (own.head? ≠ (remains ++ rest).head? ∧ remains = [] →
      interval = (kept.length, kept.length + own.length)) := by
  have hpos : 0 < own.length := List.length_pos_iff.mpr hown
  subst h
  unfold countedInterval
  rw [← front_stretch_eq_zero_iff hown, ← List.length_eq_zero_iff, front_stretch, length_stretch,
    length_stretch]
  dsimp only
  refine ⟨by omega, fun hshow => Prod.ext ?_ ?_⟩
  · dsimp only
    omega
  · dsimp only
    omega

end Stretch

/-- The interval has all that lies between the two places, if the stretch shows, and then it is
that. -/
theorem interval_stretch {d : Designation} {kept own remains rest : List ℤ} {interval : ℕ × ℕ} (hown : own ≠ [])
    (h : d.interval (kept ++ own ++ rest) (kept ++ remains ++ rest) = .ok (some interval)) :
    ((interval.1 ≤ kept.length ∧ kept.length + own.length ≤ interval.2) ↔
      own.head? ≠ (remains ++ rest).head? ∧ d.EndShows own remains) ∧
    (own.head? ≠ (remains ++ rest).head? ∧ d.EndShows own remains →
      interval = (kept.length, kept.length + own.length)) := by
  cases d with
  | finalUser =>
      unfold Designation.interval at h
      split_ifs at h
      · exact countedInterval_stretch hown (Option.some.inj (Except.ok.inj h)).symm
      · cases Except.ok.inj h
  | span i a b =>
      unfold Designation.interval at h
      dsimp only at h
      split_ifs at h
      · exact comparedInterval_stretch hown (Option.some.inj (Except.ok.inj h)).symm
      · cases Except.ok.inj h
  | range a b =>
      unfold Designation.interval at h
      dsimp only at h
      split_ifs at h
      exact comparedInterval_stretch hown (Option.some.inj (Except.ok.inj h)).symm

namespace Parting

variable {S : Server} {messages : List Json} {d : Designation} (p : Parting S messages d) {v : View} {k : ℕ}

/-- **The stretch shows**: it does not begin as what stands in its place in the second prompt, and
its end is found. -/
def Shows : Prop := p.own.head? ≠ (p.remains ++ p.rest).head? ∧ d.EndShows p.own p.remains

/-- The pieces of the prompt. -/
def normal : Pieces Tokenizer.Byte :=
  p.normalBefore ++ (p.normalPre ++ p.normalText ++ p.normalPost) ++ p.normalAfter

/-- What is read off a request. -/
def toView : View where
  tokenizer := S.tokenizer
  full := p.kept ++ p.own ++ p.rest
  empty := p.kept ++ p.remains ++ p.rest
  designated := (designatedBytes p.query p.marked).map (Tokenizer.TextByteSpan.carry p.normal)
  others := (otherSegments p.query p.marked).map (Tokenizer.TextByteSpan.carry p.normal)

/-- **The view of a request in terms of its texts.** -/
theorem view_eq (hv : view S messages d = .ok (some v)) : v = p.toView := by
  obtain ⟨query, hquery, hview⟩ := Except.bind_eq_ok.mp hv
  rw [p.designates] at hquery
  obtain rfl := Except.ok.inj hquery
  obtain ⟨r, hr, hview₁⟩ := Except.bind_eq_ok.mp hview
  rw [p.renders] at hr
  obtain rfl := Except.ok.inj hr
  obtain ⟨full, hfull, hview₂⟩ := Except.bind_eq_ok.mp hview₁
  rw [p.prompt, p.encodes] at hfull
  obtain rfl := Except.ok.inj hfull
  obtain ⟨e, he, hview₃⟩ := Except.bind_eq_ok.mp hview₂
  rw [p.renders_twin] at he
  obtain rfl := Except.ok.inj he
  obtain ⟨empty, hempty, hview₄⟩ := Except.bind_eq_ok.mp hview₃
  rw [p.prompt_twin, p.encodes_twin] at hempty
  obtain rfl := Except.ok.inj hempty
  obtain ⟨n, hn, hview₅⟩ := Except.map_eq_ok.mp hview₄
  rw [p.prompt] at hn
  have hspans : n.spans = (designatedBytes p.query p.marked ++ otherSegments p.query p.marked).map
      (Tokenizer.TextByteSpan.carry p.normal) := p.normalizes.spans_eq hn
  rw [← Option.some.inj hview₅]
  unfold toView
  rw [hspans, List.map_append, List.take_left' (List.length_map _), List.drop_left' (List.length_map _)]

/-! ## Where the texts stand -/

/-- Where the text begins in the normal form, and where it ends. -/
def textBegin : ℕ := (Pieces.image (p.normalBefore ++ p.normalPre)).length

def textEnd : ℕ := (Pieces.image (p.normalBefore ++ (p.normalPre ++ p.normalText))).length

/-- Where the stretch begins in the normal form, and where it ends. -/
def stretchBegin : ℕ := (Pieces.image p.normalBefore).length

def stretchEnd : ℕ := (Pieces.image (p.normalBefore ++ (p.normalPre ++ p.normalText ++ p.normalPost))).length

theorem order : p.stretchBegin ≤ p.textBegin ∧ p.textBegin < p.textEnd ∧ p.textEnd ≤ p.stretchEnd := by
  have hpos : 0 < (Pieces.image p.normalText).length := List.length_pos_iff.mpr p.text_ne_nil
  unfold stretchBegin textBegin textEnd stretchEnd
  simp only [Pieces.image_append, List.length_append]
  omega

/-- An edge between the texts is carried to where its pieces end. -/
theorem carry_edge {upper : Bool} {K M : Pieces Tokenizer.Byte} (h : p.normal = K ++ M) :
    Pieces.carry upper p.normal (Pieces.source K).length = (Pieces.image K).length := by
  have hnonempty : ∀ q ∈ p.normal, q.1 ≠ [] := p.normalizes.nonempty
  rw [h] at hnonempty ⊢
  exact Pieces.carry_edge fun q hq => hnonempty q (List.mem_append_left _ hq)

theorem length_wire (text : Bytes) : (wire text).length = text.length := List.length_map _

theorem source_lengths : (Pieces.source p.normalBefore).length = p.before.length ∧
    (Pieces.source (p.normalBefore ++ p.normalPre)).length = (p.before ++ p.pre).length ∧
    (Pieces.source (p.normalBefore ++ (p.normalPre ++ p.normalText))).length =
      (p.before ++ p.pre).length + p.text.length ∧
    (Pieces.source (p.normalBefore ++ (p.normalPre ++ p.normalText ++ p.normalPost))).length =
      (p.before ++ (p.pre ++ p.text ++ p.post)).length := by
  simp only [Pieces.source_append, List.length_append, p.source_before, p.source_pre, p.source_text, p.source_post,
    length_wire, true_and]
  exact ⟨(Nat.add_assoc _ _ _).symm, trivial⟩

/-- Where the text begins and ends is carried exactly. -/
theorem carry_text (upper : Bool) :
    Pieces.carry upper p.normal (p.before ++ p.pre).length = p.textBegin ∧
      Pieces.carry upper p.normal ((p.before ++ p.pre).length + p.text.length) = p.textEnd := by
  obtain ⟨-, hbegin, hend, -⟩ := p.source_lengths
  rw [← hbegin]
  refine ⟨p.carry_edge (M := p.normalText ++ p.normalPost ++ p.normalAfter) ?_, ?_⟩
  · unfold normal
    simp only [List.append_assoc]
  · rw [hbegin, ← hend]
    refine p.carry_edge (M := p.normalPost ++ p.normalAfter) ?_
    unfold normal
    simp only [List.append_assoc]

/-- Where the stretch begins and ends is carried exactly. -/
theorem carry_stretch (upper : Bool) :
    Pieces.carry upper p.normal p.before.length = p.stretchBegin ∧
      Pieces.carry upper p.normal (p.before ++ (p.pre ++ p.text ++ p.post)).length = p.stretchEnd := by
  obtain ⟨hbegin, -, -, hend⟩ := p.source_lengths
  rw [← hbegin, ← hend]
  refine ⟨p.carry_edge (M := p.normalPre ++ p.normalText ++ p.normalPost ++ p.normalAfter) ?_,
    p.carry_edge (M := p.normalAfter) rfl⟩
  unfold normal
  simp only [List.append_assoc]

/-- A designated byte lies in the text. -/
theorem designated_within {s : Tokenizer.TextByteSpan} (hs : s ∈ p.toView.designated) :
    p.textBegin ≤ s.begin' ∧ s.end' ≤ p.textEnd := by
  obtain ⟨given, hgiven, rfl⟩ := List.mem_map.mp hs
  obtain ⟨j, hj, rfl⟩ := (p.designated given).mp hgiven
  unfold Tokenizer.TextByteSpan.carry
  dsimp only
  rw [if_neg (by omega), ← (p.carry_text false).1, ← (p.carry_text true).2]
  exact ⟨Pieces.carry_mono (by omega), Pieces.carry_mono (by omega)⟩

/-- The other messages lie before the stretch or behind it. -/
theorem others_outside {s : Tokenizer.TextByteSpan} (hs : s ∈ p.toView.others) :
    s.end' ≤ p.stretchBegin ∨ p.stretchEnd ≤ s.begin' := by
  obtain ⟨given, hgiven, rfl⟩ := List.mem_map.mp hs
  obtain ⟨hle, hside⟩ := p.others given hgiven
  rcases hside with hbefore | hbehind
  · left
    rw [← (p.carry_stretch true).1]
    unfold Tokenizer.TextByteSpan.carry
    dsimp only
    split_ifs
    · exact Pieces.carry_false_le_true.trans (Pieces.carry_mono (hle.trans hbefore))
    · exact Pieces.carry_mono hbefore
  · right
    rw [← (p.carry_stretch false).2]
    exact Pieces.carry_mono hbehind

/-- Every byte of the text in its normal form comes from a designated byte. -/
theorem exists_designated {x : ℕ} (hx : p.textBegin ≤ x) (hx' : x < p.textEnd) :
    ∃ s ∈ p.toView.designated, s.begin' ≤ x ∧ x < s.end' := by
  have hnonempty : ∀ q ∈ p.normal, q.1 ≠ [] := p.normalizes.nonempty
  have hnormal : p.normal = (p.normalBefore ++ p.normalPre) ++ (p.normalText ++ (p.normalPost ++ p.normalAfter)) := by
    unfold normal
    simp only [List.append_assoc]
  rw [hnormal] at hnonempty
  obtain ⟨-, hbegin, -, -⟩ := p.source_lengths
  have htext : (Pieces.source p.normalText).length = p.text.length := by rw [p.source_text, length_wire]
  have hlt : x - p.textBegin < (Pieces.image p.normalText).length := by
    unfold textBegin textEnd at *
    simp only [Pieces.image_append, List.length_append] at *
    omega
  obtain ⟨j, hj, hcarried⟩ := Pieces.exists_carry (M := p.normalPost ++ p.normalAfter)
    (fun q hq => hnonempty q (List.mem_append_left _ hq))
    (fun q hq => hnonempty q (List.mem_append_right _ (List.mem_append_left _ hq))) hlt
  rw [← hnormal, hbegin] at hcarried
  refine ⟨_, List.mem_map_of_mem ((p.designated _).mpr ⟨j, htext ▸ hj, rfl⟩), ?_⟩
  unfold Tokenizer.TextByteSpan.carry
  dsimp only
  rw [if_neg (by omega)]
  have hsum : (Pieces.image (p.normalBefore ++ p.normalPre)).length + (x - p.textBegin) = x := by
    change p.textBegin + _ = x
    omega
  rwa [hsum] at hcarried

/-! ## The tokens -/

theorem own_ne_nil : p.own ≠ [] := by
  intro hnil
  have hopens := p.opens
  rw [hnil] at hopens
  exact Nat.not_lt_zero _ hopens

theorem offset_append (i : ℕ) : p.toView.offset (p.kept.length + i) =
    p.stretchBegin + (S.tokenizer.decode ((p.own ++ p.rest).take i)).length := by
  unfold View.offset stretchBegin
  show (S.tokenizer.decode ((p.kept ++ p.own ++ p.rest).take (p.kept.length + i))).length = _
  rw [List.append_assoc, List.take_length_add_append, Tokenizer.QwenTokenizer.decode_append, List.length_append,
    p.decodes_kept]

theorem offset_kept : p.toView.offset p.kept.length = p.stretchBegin := by
  have h := p.offset_append 0
  rwa [List.take_zero] at h

theorem offset_own : p.toView.offset (p.kept.length + p.own.length) = p.stretchEnd := by
  rw [offset_append, List.take_left, p.decodes_own]
  unfold stretchBegin stretchEnd
  rw [Pieces.image_append p.normalBefore, List.length_append]

theorem offset_mono : Monotone p.toView.offset := by
  intro i j hij
  unfold View.offset
  rw [← Nat.add_sub_of_le hij, List.take_add, Tokenizer.QwenTokenizer.decode_append, List.length_append]
  exact Nat.le_add_right _ _

/-- The first token of the stretch has a byte of the text. -/
theorem carries_first : p.toView.Carries p.kept.length := by
  obtain ⟨hfirst, hlt, -⟩ := p.order
  obtain ⟨s, hs, hbegin, hend⟩ := p.exists_designated le_rfl hlt
  refine ⟨s, hs, p.textBegin, ?_, ?_, hbegin, hend⟩
  · rwa [offset_kept]
  · have hopens := p.opens
    have hpos : 1 ≤ p.own.length := List.length_pos_iff.mpr p.own_ne_nil
    rw [offset_append, List.take_append_of_le_length hpos]
    unfold textBegin stretchBegin
    rw [Pieces.image_append, List.length_append]
    omega

/-- And so does its last token. -/
theorem carries_last : p.toView.Carries (p.kept.length + (p.own.length - 1)) := by
  obtain ⟨-, hlt, hlast⟩ := p.order
  have hpos : 1 ≤ p.own.length := List.length_pos_iff.mpr p.own_ne_nil
  obtain ⟨s, hs, hbegin, hend⟩ := p.exists_designated (x := p.textEnd - 1) (by omega) (by omega)
  refine ⟨s, hs, p.textEnd - 1, ?_, ?_, hbegin, hend⟩
  · have hcloses := p.closes
    rw [List.dropLast_eq_take] at hcloses
    rw [offset_append, List.take_append_of_le_length (Nat.sub_le _ _)]
    unfold textEnd stretchBegin
    rw [Pieces.image_append, List.length_append]
    omega
  · rw [show p.kept.length + (p.own.length - 1) + 1 = p.kept.length + p.own.length by omega, offset_own]
    omega

/-- **The tokens of the stretch cover the query.** -/
theorem covers : p.toView.Covers (p.kept.length, p.kept.length + p.own.length) := by
  obtain ⟨hbegin, hlt, hend⟩ := p.order
  intro k _
  dsimp only
  refine ⟨?_, ?_⟩
  · rintro ⟨s, hs, j, hfrom, hto, hsbegin, hsend⟩
    obtain ⟨hwithin, hwithin'⟩ := p.designated_within hs
    constructor
    · by_contra hbefore
      have hmono := p.offset_mono (show k + 1 ≤ p.kept.length by omega)
      rw [offset_kept] at hmono
      omega
    · by_contra hbehind
      have hmono := p.offset_mono (show p.kept.length + p.own.length ≤ k by omega)
      rw [offset_own] at hmono
      omega
  · rintro ⟨hpiece, s, hs, hsbegin, hsend⟩ ⟨hfrom, hto⟩
    have hmono := p.offset_mono hfrom
    have hmono' := p.offset_mono (show k + 1 ≤ p.kept.length + p.own.length by omega)
    rw [offset_kept] at hmono
    rw [offset_own] at hmono'
    rcases p.others_outside hs with hbefore | hbehind
    · omega
    · omega

/-- **An interval that is set covers the query just when the stretch shows.** -/
theorem covers_iff {interval : ℕ × ℕ} (h : queryInterval S messages d = .ok (some interval))
    (hv : view S messages d = .ok (some v)) : v.Covers interval ↔ p.Shows := by
  have hinterval := interval_of_view h hv
  rw [p.view_eq hv] at hinterval ⊢
  obtain ⟨hends, hexact⟩ := interval_stretch p.own_ne_nil hinterval
  constructor
  · intro hcovers
    have hpos : 0 < p.own.length := List.length_pos_iff.mpr p.own_ne_nil
    have hlength : p.toView.full.length = p.kept.length + p.own.length + p.rest.length := by
      show (p.kept ++ p.own ++ p.rest).length = _
      rw [List.length_append, List.length_append]
    have hfirst := (hcovers p.kept.length (by omega)).1 p.carries_first
    have hlast := (hcovers (p.kept.length + (p.own.length - 1)) (by omega)).1 p.carries_last
    exact hends.mp ⟨hfirst.1, by omega⟩
  · intro hshows
    rw [hexact hshows]
    exact p.covers

end Parting

/-- **Does the interval cover the query?** Where the designated text can be taken out of the
prompt, just when its stretch shows.  A range behind a message of another role begins with the
token with which what follows it begins, and the interval never has that token. -/
theorem queryInterval_covers_iff (S : Server) (messages : List Json) (d : Designation) {interval : ℕ × ℕ} {v : View}
    (h : queryInterval S messages d = .ok (some interval)) (hv : view S messages d = .ok (some v)) :
    (∀ p : Parting S messages d, v.Covers interval ↔ p.Shows) ∧
    ∀ (l₁ c l₂ : List Json) (id : ℤ), messages = l₁ ++ c ++ l₂ → d = .range l₁.length (l₁.length + c.length) →
      S.tokenizer.Special Tokenizer.boundary id → S.options.addGenerationPrompt = true →
      S.options.stableHarnessReasoning = true →
      (∃ m ∈ l₁, m.isObject = true ∧ ∀ role, roleOf m = .ok role → isControl role = false) →
      ¬ (isToolMessage l₁.getLast? = .ok true ∧ isToolMessage (c ++ l₂).head? = .ok true) →
      ¬ (isToolMessage l₁.getLast? = .ok true ∧ isToolMessage l₂.head? = .ok true) →
      ∃ body kept, renderBody S.lib S.options (chat S.lib l₁) = .ok body ∧ S.encode body.prompt = .ok kept ∧
        (v.Carries kept.length → ¬ v.Covers interval) := by
  refine ⟨fun p => p.covers_iff h hv, ?_⟩
  rintro l₁ c l₂ id rfl rfl hstart hadd hstable hother htools htools'
  obtain ⟨body, kept, hbody, hkept, hlate⟩ := range_begins_late hstart hadd hstable hother htools htools' h
  refine ⟨body, kept, hbody, hkept, fun hcarries hcovers => ?_⟩
  have hwithin : interval.1 ≤ v.full.length := by
    have hinterval := interval_of_view h hv
    unfold Designation.interval at hinterval
    dsimp only at hinterval
    split_ifs at hinterval
    rw [← Option.some.inj (Except.ok.inj hinterval)]
    exact front_le_left _ _
  have hfirst := (hcovers kept.length (hlate.trans_le hwithin)).1 hcarries
  omega

/-! ## Two questions -/

/-- The texts of the tokens of two questions. -/
def questionPieces : List Tokenizer.Bytes :=
  ["<|im_start|>", "<|im_end|>", "<think>", "u", "s", "e", "r", "\n", "a", "b", "i", "t", "n"].map Tokenizer.bytes

/-- The line break stands as a letter. -/
def questionTokenizer : Tokenizer.QwenTokenizer where
  tokens := ["<|im_start|>", "<|im_end|>", "<think>", "u", "s", "e", "r"].map Tokenizer.bytes ++ [[0xC4, 0x8A]] ++
    ["a", "b", "i", "t", "n"].map Tokenizer.bytes
  merges := []
  bosId := 0
  addBos := false
  tokens_lt := by decide

/-- The tokenizer, its texts in bytes. -/
def byteTokenizer : Tokenizer.QwenTokenizer where
  tokens := [[60, 124, 105, 109, 95, 115, 116, 97, 114, 116, 124, 62], [60, 124, 105, 109, 95, 101, 110, 100, 124, 62],
    [60, 116, 104, 105, 110, 107, 62], [117], [115], [101], [114], [196, 138], [97], [98], [105], [116], [110]]
  merges := []
  bosId := 0
  addBos := false
  tokens_lt := by decide

/-- The texts of the tokens, spelt, in bytes, and their lengths. -/
theorem tokens_questions : questionTokenizer.tokens = questionPieces.map Tokenizer.bytesToChars ∧
    questionTokenizer.tokens = byteTokenizer.tokens ∧
    questionPieces.map List.length = [12, 10, 7, 1, 1, 1, 1, 1, 1, 1, 1, 1, 1] := by
  rw [funext Tokenizer.bytesToChars_eq]
  decide +kernel

theorem byteTokenizer_eq : questionTokenizer = byteTokenizer := by
  obtain ⟨-, htokens, -⟩ := tokens_questions
  unfold questionTokenizer byteTokenizer at htokens ⊢
  congr 1

/-- A request of ASCII: what is read off it, and what is set. -/
theorem request_of_ascii {S : Server} {messages : List Json} {d : Designation} {q : Query}
    {marked : Rendered Marked} {twin : Rendered UInt8} {full empty : List ℤ}
    (hdesignate : designate S messages d = .ok (some q))
    (hmarked : renderMessages S.lib S.options (q.marked (chat S.lib messages)) = .ok marked)
    (hfull : S.encode (toBytes marked.prompt) = .ok full)
    (htwin : renderMessages S.lib S.options (q.twin (chat S.lib messages)) = .ok twin)
    (hempty : S.encode twin.prompt = .ok empty) (hascii : ∀ c ∈ wire (toBytes marked.prompt), c < 0x80)
    (hin : ∀ s ∈ designatedBytes q marked ++ otherSegments q marked,
      s.begin' ≤ s.end' ∧ s.end' ≤ (wire (toBytes marked.prompt)).length) :
    view S messages d =
      .ok (some ⟨S.tokenizer, full, empty, designatedBytes q marked, otherSegments q marked⟩) ∧
    queryInterval S messages d = d.interval full empty := by
  have hnormal : Tokenizer.normalizeByteSpans S.nfc S.utf8proc (wire (toBytes marked.prompt)) _ = _ :=
    Tokenizer.normalizeByteSpans_unchanged hin (if_pos hascii)
  constructor
  · refine Except.bind_eq_ok.mpr ⟨some q, hdesignate, ?_⟩
    refine Except.bind_eq_ok.mpr ⟨marked, hmarked, ?_⟩
    refine Except.bind_eq_ok.mpr ⟨full, hfull, ?_⟩
    refine Except.bind_eq_ok.mpr ⟨twin, htwin, ?_⟩
    refine Except.bind_eq_ok.mpr ⟨empty, hempty, ?_⟩
    exact Except.map_eq_ok.mpr ⟨_, hnormal, by rw [List.take_left, List.drop_left]⟩
  · have hrender : renderMessages S.lib S.options (chat S.lib messages) = .ok marked.forget := by
      rw [← forget_marked q (chat S.lib messages), renderMessages_forget, hmarked]
      rfl
    have hprompt : S.encode marked.forget.prompt = .ok full := hfull
    simp only [queryInterval, hrender, hprompt, hdesignate, htwin, hempty, Except.bind]

def questionServer : Server :=
  ⟨dumpLibrary, {}, questionTokenizer, Tokenizer.QwenTokenizer.sampleNfc, .ascii, Tokenizer.sampleUtf8proc⟩

/-- The tokens of a text of ASCII. -/
def askedIds (text : Tokenizer.Bytes) : List ℤ :=
  (byteTokenizer.segments text).flatMap fun seg =>
    seg.specialId.elim (seg.text.flatMap byteTokenizer.byteIds) fun id => [id]

theorem encode_askedIds {text : Bytes} (hascii : ∀ c ∈ wire text, c < 0x80) :
    questionServer.encode text = .ok (askedIds (wire text)) := by
  show questionTokenizer.encode _ _ _ _ = _
  rw [byteTokenizer_eq, Tokenizer.QwenTokenizer.encode_of_no_merges rfl hascii]
  rfl

theorem stretchIds_askedIds {text : Bytes} (hascii : ∀ c ∈ wire text, c < 0x80) :
    stretchIds questionServer.tokenizer questionServer.nfc questionServer.classes (wire text) =
      .ok (askedIds (wire text)) := by
  have hencode := encode_askedIds hascii
  obtain ⟨encoded, hencoded, hall⟩ := Except.bind_eq_ok.mp hencode
  exact Except.map_eq_ok.mpr ⟨encoded, hencoded, Except.ok.inj hall⟩

/-- Before a special token a text can be cut. -/
theorem askedIds_append {w : Tokenizer.Bytes} {id : ℤ} (hw : byteTokenizer.Special w id) {y : Bytes} (hy : w <+: wire y)
    (x : Bytes) : askedIds (wire (x ++ y)) = askedIds (wire x) ++ askedIds (wire y) := by
  unfold askedIds
  rw [wire_append, Tokenizer.QwenTokenizer.segments_append hy hw, List.flatMap_append]

/-- The tokens of each. -/
def firstIds : List ℤ := [0, 3, 4, 5, 6, 7, 8, 1, 7]

def openIds : List ℤ := [0, 3, 4, 5, 6, 7]

def closeIds : List ℤ := [1, 7, 0, 8, 4, 4, 10, 4, 11, 8, 12, 11, 7, 2, 7]

theorem ids_questions : (byteTokenizer.Special Tokenizer.boundary 0 ∧
    byteTokenizer.Special [60, 124, 105, 109, 95, 101, 110, 100, 124, 62] 1 ∧
    Tokenizer.boundary = [60, 124, 105, 109, 95, 115, 116, 97, 114, 116, 124, 62]) ∧
    askedIds (wire firstBytes) = firstIds ∧ askedIds (wire openBytes) = openIds ∧
    askedIds (wire (openBytes ++ [98])) = openIds ++ [9] ∧ askedIds (wire [98]) = [9] ∧
    askedIds (wire closeBytes) = closeIds ∧ askedIds (wire (closeBytes.drop 11)) = closeIds.drop 2 := by
  unfold Tokenizer.QwenTokenizer.Special
  decide +kernel

/-- The two questions, and the second alone, have their tokens. -/
theorem askedIds_questions : askedIds (wire (firstBytes ++ openBytes)) = firstIds ++ openIds ∧
    askedIds (wire (firstBytes ++ openBytes ++ closeBytes)) = firstIds ++ openIds ++ closeIds ∧
    askedIds (wire questionBytes) = openIds ++ [9] ++ closeIds ∧
    askedIds (wire (firstBytes ++ questionBytes)) = firstIds ++ (openIds ++ [9] ++ closeIds) := by
  obtain ⟨⟨hstart, hend, hboundary⟩, hfirst, hopen, hown, -, hclose, -⟩ := ids_questions
  have hopens : ∀ x : Bytes, Tokenizer.boundary <+: wire (openBytes ++ x) := by
    intro x
    rw [hboundary, wire_append]
    exact ⟨_, rfl⟩
  have hcloses : [60, 124, 105, 109, 95, 101, 110, 100, 124, 62] <+: wire closeBytes := ⟨_, rfl⟩
  have hsecond : askedIds (wire questionBytes) = openIds ++ [9] ++ closeIds := by
    rw [questionBytes, askedIds_append hend hcloses, hown, hclose]
  have hboth : askedIds (wire (firstBytes ++ openBytes)) = firstIds ++ openIds := by
    have hopens' := hopens []
    rw [List.append_nil] at hopens'
    rw [askedIds_append hstart hopens', hfirst, hopen]
  refine ⟨hboth, ?_, hsecond, ?_⟩
  · rw [askedIds_append hend hcloses, hboth, hclose]
  · rw [askedIds_append hstart (by rw [questionBytes, List.append_assoc]; exact hopens _), hfirst, hsecond]

/-- The pieces of the prompts. -/
theorem subset_questions : firstBytes ++ openBytes ⊆ firstBytes ++ questionBytes ∧ [98] ⊆ firstBytes ++ questionBytes ∧
    closeBytes ⊆ firstBytes ++ questionBytes ∧ questionBytes ⊆ firstBytes ++ questionBytes := by
  have hsecond : questionBytes ⊆ firstBytes ++ questionBytes := List.subset_append_right _ _
  obtain ⟨hopens, hclose⟩ := List.append_subset.mp (hsecond : openBytes ++ [98] ++ closeBytes ⊆ _)
  obtain ⟨hopen, hown⟩ := List.append_subset.mp hopens
  exact ⟨List.append_subset.mpr ⟨List.subset_append_left _ _, hopen⟩, hown, hclose, hsecond⟩

theorem decode_questions {ids : List ℤ} (hnonneg : ∀ id ∈ ids, 0 ≤ id) :
    questionTokenizer.decode ids = ids.flatMap fun id => questionPieces.getD id.toNat [] := by
  obtain ⟨htokens, -, -⟩ := tokens_questions
  exact List.flatMap_congr fun id hid => Tokenizer.QwenTokenizer.decodeOne_chars htokens (hnonneg id hid)

/-! ### The last of them is the query -/

/-- What is designated: the content of the last question. -/
def lastQuestion : Query where
  marks := fun i _ => i = 1
  removed := fun _ => false
  chosen := fun i => i = 1

/-- What stands before the content. -/
def beforeLast : Bytes := firstBytes ++ openBytes

/-- The prompt, in which the `b` is marked. -/
def lastPrompt : Rendered Marked where
  prompt := ofBytes beforeLast ++ [(98, true)] ++ ofBytes closeBytes
  spans := [⟨0, "user", 0, 29, 17, 18⟩, ⟨1, "user", 29, 58, 46, 47⟩]
  controlPrefixEnd := 0

/-- The prompt without it. -/
def emptiedPrompt : Rendered UInt8 where
  prompt := beforeLast ++ closeBytes
  spans := [⟨0, "user", 0, 29, 17, 18⟩, ⟨1, "user", 29, 57, 46, 46⟩]
  controlPrefixEnd := 0

theorem designate_last : designate questionServer questions .finalUser = .ok (some lastQuestion) := by
  have hasks : asksForSomething {} (utf8 "b") = true := by decide +kernel
  have hlast : lastQueryIndexForTemplate questionServer.options (chat questionServer.lib questions) = .ok 1 := by
    show Except.map _ (if "user" = "user" ∧ asksForSomething {} (toBytes (utf8 "b")) = true then _ else _) = _
    rw [toBytes_bytes, if_pos ⟨rfl, hasks⟩]
    rfl
  unfold designate
  dsimp only
  rw [hlast]
  rfl

theorem render_last : renderMessages dumpLibrary {} (lastQuestion.marked (chat dumpLibrary questions)) = .ok lastPrompt := by
  have hroled : ∀ m ∈ lastQuestion.marked (chat dumpLibrary questions), Roled m :=
    List.forall_mem_cons.mpr ⟨roled_of_user rfl, List.forall_mem_singleton.mpr (roled_of_user rfl)⟩
  exact renderMessages_of_users (t := ⟨_, _⟩) rfl rfl hroled fun _ => rfl

theorem render_emptied : renderMessages dumpLibrary {} (lastQuestion.twin (chat dumpLibrary questions)) =
    .ok emptiedPrompt := by
  have hroled : ∀ m ∈ lastQuestion.twin (chat dumpLibrary questions), Roled m :=
    List.forall_mem_cons.mpr ⟨roled_of_user rfl, List.forall_mem_singleton.mpr (roled_of_user rfl)⟩
  exact renderMessages_of_users (t := ⟨_, _⟩) rfl rfl hroled fun _ => rfl

/-- The tokens before the content. -/
def keptIds : List ℤ := firstIds ++ openIds

/-- The `b` alone is designated, and the other segment is that of the first question. -/
theorem spans_last : designatedBytes lastQuestion lastPrompt = [⟨46, 47⟩] ∧
    otherSegments lastQuestion lastPrompt = [⟨0, 29⟩] ∧ beforeLast.length = 46 := by
  unfold designatedBytes
  exact ⟨rfl, rfl, rfl⟩

theorem ascii_around {mid : Bytes} (hmid : mid ⊆ [98]) : ∀ c ∈ wire (beforeLast ++ mid ++ closeBytes), c < 0x80 := by
  obtain ⟨hbefore, hown, hclose, -⟩ := subset_questions
  exact ascii_questions (List.append_subset.mpr ⟨List.append_subset.mpr ⟨hbefore, List.Subset.trans hmid hown⟩, hclose⟩)

theorem whole_last : beforeLast ++ [98] ++ closeBytes = firstBytes ++ questionBytes := by
  unfold beforeLast questionBytes
  rw [List.append_assoc, List.append_assoc, List.append_assoc]

/-- The prompts have their tokens. -/
theorem tokens_last : askedIds (wire (beforeLast ++ [98] ++ closeBytes)) = keptIds ++ [9] ++ closeIds ∧
    askedIds (wire (beforeLast ++ [] ++ closeBytes)) = keptIds ++ [] ++ closeIds := by
  obtain ⟨-, hremains, -, hwhole⟩ := askedIds_questions
  refine ⟨?_, ?_⟩
  · rw [whole_last, hwhole]
    rfl
  · rw [List.append_nil, List.append_nil]
    exact hremains

theorem decode_last : questionTokenizer.decode keptIds = wire beforeLast ∧ questionTokenizer.decode [9] = wire [98] := by
  rw [decode_questions (by decide), decode_questions (by decide)]
  exact ⟨rfl, rfl⟩

/-- Without the mark. -/
theorem toBytes_last : toBytes lastPrompt.prompt = beforeLast ++ [98] ++ closeBytes := by
  show toBytes (ofBytes beforeLast ++ [(98, true)] ++ ofBytes closeBytes : List Marked) = _
  have hplain : ∀ text : Bytes, (ofBytes text : List UInt8) = text := fun text => List.map_id text
  rw [toBytes_append, toBytes_append, toBytes_ofBytes, toBytes_ofBytes, hplain, hplain]
  rfl

theorem pieces_last : ∀ p ∈ [(wire beforeLast, wire beforeLast), (wire [98], wire [98]), (wire closeBytes, wire closeBytes)],
    p.1 ≠ [] ∧ p.1 = p.2 := by
  intro p hp
  simp only [List.mem_cons, List.not_mem_nil, or_false] at hp
  rcases hp with rfl | rfl | rfl
  · exact ⟨List.cons_ne_nil _ _, rfl⟩
  · exact ⟨List.cons_ne_nil _ _, rfl⟩
  · exact ⟨List.cons_ne_nil _ _, rfl⟩

/-- The content of the last question stands between its frames, and nothing of it remains. -/
def lastParting : Parting questionServer questions .finalUser where
  query := lastQuestion
  marked := lastPrompt
  twin := emptiedPrompt
  before := beforeLast
  pre := []
  text := [98]
  post := []
  after := closeBytes
  kept := keptIds
  own := [9]
  remains := []
  rest := closeIds
  normalBefore := [(wire beforeLast, wire beforeLast)]
  normalPre := []
  normalText := [(wire [98], wire [98])]
  normalPost := []
  normalAfter := [(wire closeBytes, wire closeBytes)]
  designates := designate_last
  renders := render_last
  renders_twin := render_emptied
  prompt := toBytes_last
  prompt_twin := by
    show beforeLast ++ closeBytes = beforeLast ++ [] ++ closeBytes
    rw [List.append_nil]
  designated := by
    obtain ⟨hdesignated, -, hlength⟩ := spans_last
    intro s
    rw [hdesignated, List.mem_singleton, List.append_nil, hlength]
    constructor
    · rintro rfl
      exact ⟨0, Nat.one_pos, rfl⟩
    · rintro ⟨j, hj, rfl⟩
      obtain rfl : j = 0 := Nat.lt_one_iff.mp hj
      rfl
  others := by
    obtain ⟨-, hothers, hlength⟩ := spans_last
    intro s hs
    rw [hothers] at hs
    rw [List.mem_singleton.mp hs, hlength]
    decide
  encodes_before := by
    obtain ⟨hbefore, -⟩ := askedIds_questions
    exact (encode_askedIds (ascii_questions subset_questions.1)).trans (congrArg Except.ok hbefore)
  encodes_own := by
    obtain ⟨-, -, -, -, hown, -⟩ := ids_questions
    exact hown ▸ stretchIds_askedIds (ascii_questions subset_questions.2.1)
  encodes_remains := stretchIds_askedIds nofun
  encodes_after := by
    obtain ⟨-, -, -, -, -, hclose, -⟩ := ids_questions
    exact hclose ▸ stretchIds_askedIds (ascii_questions subset_questions.2.2.1)
  encodes := by
    obtain ⟨hprompt, -⟩ := tokens_last
    exact hprompt ▸ encode_askedIds (ascii_around (List.Subset.refl _))
  encodes_twin := by
    obtain ⟨-, htwin⟩ := tokens_last
    exact htwin ▸ encode_askedIds (ascii_around (List.nil_subset _))
  normalizes := by
    have hwhole : wire (beforeLast ++ [98] ++ closeBytes) = wire beforeLast ++ (wire [98] ++ (wire closeBytes ++ [])) := by
      rw [wire_append, wire_append, List.append_assoc, List.append_nil]
    refine ⟨?_, hwhole.symm, ?_, .inl ?_⟩
    · show Tokenizer.qwenNormalizeUtf8 _ (wire (beforeLast ++ [98] ++ closeBytes)) = .ok (_ ++ (_ ++ (_ ++ [])))
      rw [← hwhole]
      exact if_pos (ascii_around (List.Subset.refl _))
    · exact fun p hp => (pieces_last p hp).1
    · exact fun p hp => (pieces_last p hp).2
  source_before := List.append_nil _
  source_pre := rfl
  source_text := rfl
  source_post := rfl
  decodes_kept := decode_last.1.trans (List.append_nil _).symm
  decodes_own := decode_last.2
  text_ne_nil := nofun
  opens := by
    show 0 < (questionTokenizer.decode [9]).length
    rw [decode_last.2]
    exact Nat.one_pos
  closes := Nat.one_pos

/-- The prompts in tokens. -/
def lastView : View where
  tokenizer := questionTokenizer
  full := keptIds ++ [9] ++ closeIds
  empty := keptIds ++ [] ++ closeIds
  designated := [⟨46, 47⟩]
  others := [⟨0, 29⟩]

theorem request_last : view questionServer questions .finalUser = .ok (some lastView) ∧
    queryInterval questionServer questions .finalUser = .ok (some (15, 16)) := by
  obtain ⟨hdesignated, hothers, -⟩ := spans_last
  have hrequest := request_of_ascii designate_last render_last (toBytes_last ▸ lastParting.encodes)
    render_emptied (lastParting.prompt_twin ▸ lastParting.encodes_twin)
    (by rw [toBytes_last]; exact ascii_around (List.Subset.refl _))
    (by rw [hdesignated, hothers, toBytes_last]; decide)
  rw [hdesignated, hothers] at hrequest
  exact hrequest

/-! ### The first of them is the query -/

/-- What is designated: the first question. -/
def firstQuestion : Query where
  marks := fun _ _ => false
  removed := fun i => (0 : ℤ) ≤ i ∧ (i : ℤ) < 1
  chosen := fun i => (0 : ℤ) ≤ i ∧ (i : ℤ) < 1

/-- The prompt of both, in whatever glyphs. -/
def twoPrompt (β : Type) [Glyph β] : Rendered β where
  prompt := ofBytes (firstBytes ++ questionBytes)
  spans := [⟨0, "user", 0, 29, 17, 18⟩, ⟨1, "user", 29, 58, 46, 47⟩]
  controlPrefixEnd := 0

/-- The prompt of the second alone. -/
def onePrompt : Rendered UInt8 where
  prompt := questionBytes
  spans := [⟨0, "user", 0, 29, 17, 18⟩]
  controlPrefixEnd := 0

/-- The prompts in tokens; those of the one end those of the other. -/
def questionView : View where
  tokenizer := questionTokenizer
  full := firstIds ++ (openIds ++ [9] ++ closeIds)
  empty := openIds ++ [9] ++ closeIds
  designated := (List.range 29).map fun j => ⟨j, j + 1⟩
  others := [⟨29, 58⟩]

theorem render_marked : renderMessages dumpLibrary {} (firstQuestion.marked (chat dumpLibrary questions)) =
    .ok (twoPrompt Marked) := by
  have hroled : ∀ m ∈ firstQuestion.marked (chat dumpLibrary questions), Roled m :=
    List.forall_mem_cons.mpr ⟨roled_of_user rfl, List.forall_mem_singleton.mpr (roled_of_user rfl)⟩
  exact renderMessages_of_users (t := ⟨_, _⟩) rfl rfl hroled fun _ => rfl

theorem render_twin : renderMessages dumpLibrary {} (firstQuestion.twin (chat dumpLibrary questions)) = .ok onePrompt := by
  have hroled : ∀ m ∈ firstQuestion.twin (chat dumpLibrary questions), Roled m :=
    List.forall_mem_singleton.mpr (roled_of_user rfl)
  exact renderMessages_of_users (t := ⟨_, _⟩) rfl rfl hroled fun _ => rfl

/-- The prompt is what it reads. -/
theorem toBytes_questions : toBytes (twoPrompt Marked).prompt = firstBytes ++ questionBytes :=
  (toBytes_ofBytes _).trans (List.map_id _)

/-- All of the first question's segment is designated, and the other segment is that of the other
question. -/
theorem spans_questions : designatedBytes firstQuestion (twoPrompt Marked) = questionView.designated ∧
    otherSegments firstQuestion (twoPrompt Marked) = questionView.others ∧
    ∀ s ∈ questionView.designated ++ questionView.others,
      s.begin' ≤ s.end' ∧ s.end' ≤ (wire (firstBytes ++ questionBytes)).length := by
  unfold designatedBytes
  exact ⟨rfl, rfl, by decide⟩

theorem encode_questions : questionServer.encode (firstBytes ++ questionBytes) = .ok questionView.full ∧
    questionServer.encode questionBytes = .ok questionView.empty := by
  obtain ⟨-, -, hsecond, hwhole⟩ := askedIds_questions
  rw [encode_askedIds (ascii_questions (List.Subset.refl _)),
    encode_askedIds (ascii_questions subset_questions.2.2.2), hwhole, hsecond]
  exact ⟨rfl, rfl⟩

/-- Where the pieces begin: by their lengths. -/
theorem offset_questions : questionView.offset =
    fun k => ((questionView.full.take k).map fun id => [12, 10, 7, 1, 1, 1, 1, 1, 1, 1, 1, 1, 1].getD id.toNat 0).sum := by
  have hnonneg : ∀ id ∈ questionView.full, 0 ≤ id := by decide
  obtain ⟨-, -, hlengths⟩ := tokens_questions
  funext k
  show (questionTokenizer.decode (questionView.full.take k)).length = _
  rw [decode_questions fun id hid => hnonneg id (List.mem_of_mem_take hid), List.length_flatMap, ← hlengths]
  refine congrArg List.sum (List.map_congr_left fun id _ => ?_)
  exact (List.getD_map questionPieces [] List.length).symm

theorem designate_first : designate questionServer questions (.range 0 1) = .ok (some firstQuestion) := rfl

theorem request_questions : view questionServer questions (.range 0 1) = .ok (some questionView) ∧
    queryInterval questionServer questions (.range 0 1) = .ok (some (6, 15)) := by
  obtain ⟨hdesignated, hothers, hin⟩ := spans_questions
  have hrequest := request_of_ascii designate_first render_marked (toBytes_questions.symm ▸ encode_questions.1)
    render_twin encode_questions.2 (by rw [toBytes_questions]; exact ascii_questions (List.Subset.refl _))
    (by rw [hdesignated, hothers, toBytes_questions]; exact hin)
  rw [hdesignated, hothers] at hrequest
  exact hrequest

/-- Its first token is missed. -/
theorem carries_questions : questionView.Carries 0 := by
  unfold View.Carries
  rw [offset_questions]
  exact ⟨⟨0, 1⟩, by decide, 0, by decide⟩

/-- The next message begins in it. -/
theorem foreign_questions : questionView.Foreign 14 := by
  unfold View.Foreign
  rw [offset_questions]
  exact ⟨by decide, ⟨29, 58⟩, by decide, by decide⟩

theorem mapByteSpan_questions :
    mapByteSpan questionView.tokenBytes (questionView.offset questionView.full.length) ⟨0, 29⟩ = some (0, 9) := by
  unfold View.tokenBytes
  rw [offset_questions]
  rfl

/-- **The range slides** over `<|im_start|>user`, with which the next message begins too, and ends
in that message. -/
theorem range_slides : queryInterval questionServer questions (.range 0 1) = .ok (some (6, 15)) ∧
    view questionServer questions (.range 0 1) = .ok (some questionView) ∧
    mapByteSpan questionView.tokenBytes (questionView.offset questionView.full.length) ⟨0, 29⟩ = some (0, 9) ∧
    questionView.Carries 0 ∧ questionView.Foreign 14 ∧ ¬ questionView.Covers (6, 15) := by
  refine ⟨request_questions.2, request_questions.1, mapByteSpan_questions, carries_questions, foreign_questions, ?_⟩
  intro hcovers
  have hbegin : 6 ≤ 0 := ((hcovers 0 (by decide)).1 carries_questions).1
  exact absurd hbegin (by decide)

/-! ### A range behind a message -/

/-- The reasoning stays in its frames. -/
def stableServer : Server := { questionServer with options := stableOptions }

/-- What is designated: the second question, as a range. -/
def secondQuestion : Query where
  marks := fun _ _ => false
  removed := fun i => (1 : ℤ) ≤ i ∧ (i : ℤ) < 2
  chosen := fun i => (1 : ℤ) ≤ i ∧ (i : ℤ) < 2

/-- The prompts in tokens: in the second the header follows the first question. -/
def rangeView : View where
  tokenizer := questionTokenizer
  full := questionView.full
  empty := firstIds ++ closeIds.drop 2
  designated := (List.range 29).map fun j => ⟨29 + j, 29 + (j + 1)⟩
  others := [⟨0, 29⟩]

theorem render_range :
    renderMessages dumpLibrary stableOptions (secondQuestion.marked (chat dumpLibrary questions)) =
      .ok (twoPrompt Marked) ∧
    renderMessages dumpLibrary stableOptions (secondQuestion.twin (chat dumpLibrary questions)) =
      .ok ⟨⟨firstBytes ++ closeBytes.drop 11, [⟨0, "user", 0, 29, 17, 18⟩]⟩, 0⟩ ∧
    renderBody dumpLibrary stableOptions (chat dumpLibrary [userMessage "a"]) =
      .ok ⟨⟨firstBytes, [⟨0, "user", 0, 29, 17, 18⟩]⟩, 0⟩ := by
  have hroled : ∀ m ∈ secondQuestion.marked (chat dumpLibrary questions), Roled m :=
    List.forall_mem_cons.mpr ⟨roled_of_user rfl, List.forall_mem_singleton.mpr (roled_of_user rfl)⟩
  refine ⟨?_, ?_, ?_⟩
  · exact renderMessages_of_users (t := ⟨_, _⟩) rfl rfl hroled fun _ => rfl
  · exact renderMessages_of_users (t := ⟨_, _⟩) rfl rfl
      (List.forall_mem_singleton.mpr (roled_of_user rfl)) fun _ => rfl
  · exact renderBody_of_users rfl rfl (List.forall_mem_singleton.mpr (roled_of_user rfl)) fun _ => rfl

theorem encode_range : stableServer.encode (firstBytes ++ closeBytes.drop 11) = .ok rangeView.empty ∧
    stableServer.encode firstBytes = .ok firstIds := by
  obtain ⟨⟨hstart, -, hboundary⟩, hfirst, -, -, -, -, hheader⟩ := ids_questions
  have hbegins : Tokenizer.boundary <+: wire (closeBytes.drop 11) := by
    rw [hboundary]
    exact ⟨_, rfl⟩
  have hsub : closeBytes.drop 11 ⊆ firstBytes ++ questionBytes :=
    List.Subset.trans (List.drop_subset _ _) subset_questions.2.2.1
  constructor
  · refine (encode_askedIds (ascii_questions
      (List.append_subset.mpr ⟨List.subset_append_left _ _, hsub⟩))).trans ?_
    rw [askedIds_append hstart hbegins, hfirst, hheader]
    rfl
  · exact (encode_askedIds (ascii_questions (List.subset_append_left _ _))).trans (by rw [hfirst])

theorem request_range : view stableServer questions (.range 1 2) = .ok (some rangeView) ∧
    queryInterval stableServer questions (.range 1 2) = .ok (some (10, 19)) := by
  obtain ⟨hmarked, htwin, -⟩ := render_range
  have hspans : designatedBytes secondQuestion (twoPrompt Marked) = rangeView.designated ∧
      otherSegments secondQuestion (twoPrompt Marked) = rangeView.others := by
    unfold designatedBytes
    exact ⟨rfl, rfl⟩
  have hsecond : designate stableServer questions (.range 1 2) = .ok (some secondQuestion) := rfl
  have hrequest := request_of_ascii hsecond hmarked
    (toBytes_questions.symm ▸ encode_questions.1) htwin encode_range.1
    (by rw [toBytes_questions]; exact ascii_questions (List.Subset.refl _))
    (by rw [hspans.1, hspans.2, toBytes_questions]; decide)
  rw [hspans.1, hspans.2] at hrequest
  exact hrequest

/-- **The last question is found**: the `b` begins otherwise than the frame behind it.  As a range it
is not, since the header begins with `<|im_start|>` too. -/
theorem queryInterval_covers_iff_lastQuestion : queryInterval questionServer questions .finalUser = .ok (some (15, 16)) ∧
    view questionServer questions .finalUser = .ok (some lastView) ∧ lastView.Covers (15, 16) ∧
    queryInterval stableServer questions (.range 1 2) = .ok (some (10, 19)) ∧
    view stableServer questions (.range 1 2) = .ok (some rangeView) ∧ ¬ rangeView.Covers (10, 19) := by
  have hshows : lastParting.Shows := ⟨by decide, rfl⟩
  have hcovers := (queryInterval_covers_iff questionServer questions .finalUser request_last.2 request_last.1).1 lastParting
  refine ⟨request_last.2, request_last.1, hcovers.mpr hshows, request_range.2, request_range.1, ?_⟩
  obtain ⟨-, -, hbody'⟩ := render_range
  have hstart : questionTokenizer.Special Tokenizer.boundary 0 := byteTokenizer_eq ▸ ids_questions.1.1
  obtain ⟨body, kept, hbody, hkept, hmisses⟩ :=
    (queryInterval_covers_iff stableServer questions (.range 1 2) request_range.2 request_range.1).2
      [userMessage "a"] [userMessage "b"] [] 0 rfl rfl hstart rfl rfl
      ⟨_, List.mem_singleton.mpr rfl, rfl, fun role hrole => by rw [← Except.ok.inj hrole]; decide⟩
      (fun h => absurd (Except.ok.inj h.1) (by decide)) (fun h => absurd (Except.ok.inj h.1) (by decide))
  obtain rfl := Except.ok.inj (hbody'.symm.trans hbody)
  obtain rfl := Except.ok.inj (encode_range.2.symm.trans hkept)
  -- The token is `<|im_start|>` of the second question.
  refine hmisses ?_
  unfold View.Carries
  rw [show rangeView.offset = questionView.offset from rfl, offset_questions]
  exact ⟨⟨29, 30⟩, by decide, 29, by decide⟩

end Qw3.Chat
