import Mathlib.Data.List.Sort
import Qw3.Lib.Search
import Qw3.Tokenizer.Bpe

/-!
# Special tokens and the text between them

`special_` of `QwenTokenizer` and the first loop of `encode`, which cuts a text into its
special tokens and the stretches between them.

* `segments` — the loop.
* `Splits` — what it is for: each special text is a segment of its own, and the stretches
  between them are as long as they can be.
* `splits_segments`, and `segments_append` — before a special text a text can be cut.
-/

namespace Qw3.Tokenizer

open Search

/-- `kCandidates` -/
def candidates : List Bytes :=
  ["<|im_start|>", "<|im_end|>", "<|endoftext|>", "<|fim_prefix|>", "<|fim_middle|>", "<|fim_suffix|>",
    "<|vision_start|>", "<|vision_end|>", "<|image_pad|>", "<|video_pad|>", "<|object_ref_start|>",
    "<|object_ref_end|>", "<|box_start|>", "<|box_end|>", "<|quad_start|>", "<|quad_end|>", "<think>",
    "</think>", "<tool_call>", "</tool_call>", "<tool_response>", "</tool_response>"].map bytes

/-- `Segment`; a stretch of ordinary text has no id. -/
structure Segment where
  text : Bytes
  specialId : Option ℤ
deriving DecidableEq

namespace QwenTokenizer

variable (t : QwenTokenizer)

/-- `special_`: the candidates that are tokens, the longest first. -/
def special : List (Bytes × ℤ) :=
  (candidates.filterMap fun s => (t.tokenToId s).map fun id => (s, id)).insertionSort
    fun a b => b.1.length ≤ a.1.length

/-- `special_initials` -/
def specialInitials : Bytes :=
  t.special.foldl (fun initials s =>
    match s.1.head? with
    | none => initials
    | some c => if c ∈ initials then initials else initials ++ [c]) []

/-- The special token that a text begins with. -/
def specialAt (text : Bytes) : Option (Bytes × ℤ) :=
  t.special.find? fun s => s.1.head? = text.head? ∧ s.1 <+: text

/-- The loop over the candidate bytes: where the next special token stands. -/
def findSpecial : Bytes → Option (ℕ × Bytes × ℤ)
  | [] => none
  | c :: rest =>
      match if c ∈ t.specialInitials then t.specialAt (c :: rest) else none with
      | some s => some (0, s)
      | none => (findSpecial rest).map fun found => (found.1 + 1, found.2)

/-- The loop over the text that is left. -/
def segmentsFrom : ℕ → Bytes → List Segment
  | 0, _ => []
  | fuel + 1, rest =>
      if rest = [] then []
      else
        match t.findSpecial rest with
        | none => [⟨rest, none⟩]
        | some (regularEnd, s) =>
            (if regularEnd > 0 then [⟨rest.take regularEnd, none⟩] else []) ++
              ⟨s.1, some s.2⟩ :: segmentsFrom fuel (rest.drop (regularEnd + s.1.length))

/-- `segments`; each turn moves on, so that as many turns as there are bytes are enough. -/
def segments (text : Bytes) : List Segment := t.segmentsFrom text.length text

/-! ## What the loop is for -/

/-- A special text of the vocabulary, with its id. -/
def Special (w : Bytes) (id : ℤ) : Prop := w ∈ candidates ∧ t.tokenToId w = some id

/-- A text cut into its special tokens and the stretches between them. -/
structure Splits (text : Bytes) (segs : List Segment) : Prop where
  covers : segs.flatMap Segment.text = text
  special : ∀ seg ∈ segs, ∀ id, seg.specialId = some id → t.Special seg.text id
  stretch : ∀ seg ∈ segs, seg.specialId = none → seg.text ≠ []
  /-- No stretch stands next to another one. -/
  maximal : segs.IsChain fun a b => a.specialId.isSome ∨ b.specialId.isSome
  /-- A special text is a segment of its own wherever it stands. -/
  recognized : ∀ w id i, t.Special w id → OccursAt w text i →
    ∃ before after, segs = before ++ ⟨w, some id⟩ :: after ∧ (before.flatMap Segment.text).length = i

variable {t} {w v text rest a b : Bytes} {id : ℤ} {s : Bytes × ℤ} {n i : ℕ}

/-! ## The candidates -/

/-- A candidate stands between `<` and `>`, which do not stand in it again, and is visible. -/
theorem candidate_shape : ∀ w ∈ candidates, w.head? = some 0x3C ∧ 0x3C ∉ w.tail ∧
    0x3E ∈ w ∧ 0x3E ∉ w.dropLast ∧ w.all (fun c => 0x21 ≤ c.toNat && c.toNat ≤ 0x7E) = true := by
  decide +kernel

/-- No candidate begins another one: it would end there. -/
theorem candidate_prefix_free (hv : v ∈ candidates) (hw : w ∈ candidates) (h : v <+: w) : v = w := by
  obtain ⟨-, -, hclose, -⟩ := candidate_shape v hv
  obtain ⟨-, -, -, hinner, -⟩ := candidate_shape w hw
  obtain ⟨rest, rfl⟩ := h
  by_contra hne
  have hrest : rest ≠ [] := by
    rintro rfl
    exact hne (List.append_nil v).symm
  rw [List.dropLast_append_of_ne_nil hrest] at hinner
  exact hinner (List.mem_append_left _ hclose)

theorem exists_of_candidate (hw : w ∈ candidates) : ∃ tail, w = 0x3C :: tail ∧ 0x3C ∉ tail := by
  obtain ⟨hhead, htail, -⟩ := candidate_shape w hw
  obtain ⟨tail, rfl⟩ := List.head?_eq_some_iff.mp hhead
  exact ⟨tail, rfl, htail⟩

theorem mem_special : (w, id) ∈ t.special ↔ t.Special w id := by
  unfold special Special
  rw [(List.perm_insertionSort _ _).mem_iff, List.mem_filterMap]
  constructor
  · rintro ⟨w', hw', hid⟩
    obtain ⟨id', hid', heq⟩ := Option.map_eq_some_iff.mp hid
    obtain ⟨rfl, rfl⟩ := Prod.mk.inj heq
    exact ⟨hw', hid'⟩
  · rintro ⟨hw, hid⟩
    exact ⟨w, hw, by rw [hid]; rfl⟩

/-- The special texts that stand at a place are one. -/
theorem special_unique (hv : v ∈ candidates) (hw : w ∈ candidates) (hvtext : v <+: text)
    (hwtext : w <+: text) : v = w := by
  rcases List.prefix_or_prefix_of_prefix hvtext hwtext with h | h
  · exact candidate_prefix_free hv hw h
  · exact (candidate_prefix_free hw hv h).symm

theorem specialAt_eq_some : t.specialAt text = some (w, id) ↔ t.Special w id ∧ w <+: text := by
  constructor
  · intro h
    have hprop := List.find?_some h
    rw [decide_eq_true_eq] at hprop
    exact ⟨mem_special.mp (List.mem_of_find?_eq_some h), hprop.2⟩
  · rintro ⟨hw, htext⟩
    cases hfind : t.specialAt text with
    | none =>
        have hnone := List.find?_eq_none.mp hfind (w, id) (mem_special.mpr hw)
        obtain ⟨tail, rfl, -⟩ := exists_of_candidate hw.1
        obtain ⟨rest, rfl⟩ := htext
        exact absurd (decide_eq_true ⟨rfl, List.prefix_append _ _⟩) hnone
    | some s =>
        -- whatever the order of the special tokens is, it is the one that stands here
        have hprop := List.find?_some hfind
        rw [decide_eq_true_eq] at hprop
        have hs : t.Special s.1 s.2 := mem_special.mp (List.mem_of_find?_eq_some hfind)
        have heq := special_unique hs.1 hw.1 hprop.2 htext
        have hid := hs.2
        rw [heq, hw.2] at hid
        rw [Option.some.inj hid, ← heq]

theorem specialAt_eq_none : t.specialAt text = none ↔ ∀ w id, t.Special w id → ¬ w <+: text := by
  rw [Option.eq_none_iff_forall_ne_some]
  constructor
  · intro h w id hw htext
    exact h (w, id) (specialAt_eq_some.mpr ⟨hw, htext⟩)
  · rintro h ⟨w, id⟩ hs
    obtain ⟨hw, htext⟩ := specialAt_eq_some.mp hs
    exact h w id hw htext

/-- The initial of a special token is a candidate byte. -/
theorem mem_specialInitials (hw : t.Special w id) : 0x3C ∈ t.specialInitials := by
  obtain ⟨tail, rfl, -⟩ := exists_of_candidate hw.1
  have hfold : ∀ (l : List (Bytes × ℤ)) (initials : Bytes),
      0x3C ∈ initials ∨ (0x3C :: tail, id) ∈ l → 0x3C ∈ l.foldl (fun initials (s : Bytes × ℤ) =>
        match s.1.head? with
        | none => initials
        | some c => if c ∈ initials then initials else initials ++ [c]) initials := by
    intro l
    induction l with
    | nil =>
        rintro initials (h | h)
        · exact h
        · cases h
    | cons s l ih =>
        intro initials h
        rw [List.foldl_cons]
        apply ih
        rcases h with h | h
        · left
          split
          · exact h
          · split_ifs
            · exact h
            · exact List.mem_append_left _ h
        · rcases List.mem_cons.mp h with rfl | h
          · left
            dsimp only [List.head?_cons]
            split_ifs with hin
            · exact hin
            · exact List.mem_append_right _ (List.mem_singleton.mpr rfl)
          · exact Or.inr h
  exact hfold t.special [] (Or.inr (mem_special.mpr hw))

/-- The scan looks at every byte that a special token can begin with. -/
theorem findSpecial_cons (c : Byte) (rest : Bytes) : t.findSpecial (c :: rest) =
    match t.specialAt (c :: rest) with
    | some s => some (0, s)
    | none => (t.findSpecial rest).map fun found => (found.1 + 1, found.2) := by
  rw [findSpecial]
  by_cases hc : c ∈ t.specialInitials
  · rw [if_pos hc]
  · have hnone : t.specialAt (c :: rest) = none := by
      rw [specialAt_eq_none]
      intro w id hw htext
      obtain ⟨tail, rfl, -⟩ := exists_of_candidate hw.1
      rw [List.cons_prefix_cons] at htext
      exact hc (htext.1 ▸ mem_specialInitials hw)
    rw [if_neg hc, hnone]

/-! ## The scan -/

/-- Nowhere in the text stands a special token. -/
theorem findSpecial_none (h : t.findSpecial text = none) (hw : t.Special w id) : ¬ OccursAt w text i := by
  induction text generalizing i with
  | nil =>
      obtain ⟨tail, rfl, -⟩ := exists_of_candidate hw.1
      intro hat
      have hle := hat.le (List.cons_ne_nil _ _)
      rw [List.length_cons, List.length_nil] at hle
      omega
  | cons c text ih =>
      rw [findSpecial_cons] at h
      cases hat : t.specialAt (c :: text) with
      | some s =>
          rw [hat] at h
          cases h
      | none =>
          rw [hat] at h
          cases i with
          | zero => exact specialAt_eq_none.mp hat w id hw
          | succ i => exact ih (Option.map_eq_none_iff.mp h)

/-- The first special token of the text. -/
theorem findSpecial_some (h : t.findSpecial text = some (n, s)) :
    t.Special s.1 s.2 ∧ OccursAt s.1 text n ∧ ∀ i < n, ∀ w id, t.Special w id → ¬ OccursAt w text i := by
  induction text generalizing n with
  | nil => cases h
  | cons c text ih =>
      rw [findSpecial_cons] at h
      cases hat : t.specialAt (c :: text) with
      | some s' =>
          rw [hat] at h
          obtain ⟨rfl, rfl⟩ := Prod.mk.inj (Option.some.inj h)
          obtain ⟨hs, htext⟩ := specialAt_eq_some.mp hat
          exact ⟨hs, htext, fun i hi => absurd hi (Nat.not_lt_zero i)⟩
      | none =>
          rw [hat] at h
          obtain ⟨⟨n', s'⟩, hfound, heq⟩ := Option.map_eq_some_iff.mp h
          obtain ⟨rfl, rfl⟩ := Prod.mk.inj heq
          obtain ⟨hs, hn, hfirst⟩ := ih hfound
          refine ⟨hs, hn, ?_⟩
          intro i hi w id hw
          cases i with
          | zero => exact specialAt_eq_none.mp hat w id hw
          | succ i => exact hfirst i (Nat.lt_of_succ_lt_succ hi) w id hw

/-- The text up to the special token and behind it. -/
theorem findSpecial_split (h : t.findSpecial text = some (n, s)) :
    ∃ after, text = text.take n ++ (s.1 ++ after) ∧ n = (text.take n).length ∧
      text.drop (n + s.1.length) = after := by
  obtain ⟨hs, hn, -⟩ := findSpecial_some h
  obtain ⟨tail, hcons, -⟩ := exists_of_candidate hs.1
  have hle := hn.le (by rw [hcons]; exact List.cons_ne_nil _ _)
  obtain ⟨after, hafter⟩ := hn
  refine ⟨after, ?_, ?_, ?_⟩
  · rw [hafter, List.take_append_drop]
  · rw [List.length_take]
    omega
  · rw [← List.drop_drop, ← hafter, List.drop_left]

/-- Each turn moves on. -/
theorem findSpecial_lt (h : t.findSpecial text = some (n, s)) :
    (text.drop (n + s.1.length)).length < text.length := by
  obtain ⟨hs, hn, -⟩ := findSpecial_some h
  obtain ⟨tail, hcons, -⟩ := exists_of_candidate hs.1
  have hle := hn.le (by rw [hcons]; exact List.cons_ne_nil _ _)
  rw [List.length_drop]
  rw [hcons, List.length_cons] at hle ⊢
  omega

/-! ## The loop -/

theorem segmentsFrom_fuel {fuel fuel' : ℕ} (h : text.length ≤ fuel) (h' : text.length ≤ fuel') :
    t.segmentsFrom fuel text = t.segmentsFrom fuel' text := by
  have hnil : ∀ k, t.segmentsFrom k [] = [] := by
    intro k
    cases k with
    | zero => rfl
    | succ k => exact if_pos rfl
  induction fuel generalizing fuel' text with
  | zero =>
      have htext : text = [] := List.length_eq_zero_iff.mp (Nat.le_zero.mp h)
      rw [htext, hnil, hnil]
  | succ fuel ih =>
      by_cases htext : text = []
      · rw [htext, hnil, hnil]
      · obtain ⟨k, rfl⟩ : ∃ k, fuel' = k + 1 :=
          Nat.exists_eq_add_of_le' ((List.length_pos_iff.mpr htext).trans_le h')
        rw [segmentsFrom, segmentsFrom, if_neg htext, if_neg htext]
        cases hfind : t.findSpecial text with
        | none => rfl
        | some found =>
            have hlt := findSpecial_lt (n := found.1) (s := found.2) hfind
            dsimp only
            rw [ih (Nat.le_of_lt_succ (hlt.trans_le h)) (Nat.le_of_lt_succ (hlt.trans_le h'))]

/-- The stretch before a special token, if there is one. -/
def stretchOf (text : Bytes) : List Segment := if text = [] then [] else [⟨text, none⟩]

theorem segments_nil : t.segments [] = [] := rfl

theorem segments_none (h : t.findSpecial text = none) : t.segments text = stretchOf text := by
  unfold segments stretchOf
  cases text with
  | nil => rfl
  | cons c text =>
      rw [List.length_cons, segmentsFrom, if_neg (List.cons_ne_nil _ _), if_neg (List.cons_ne_nil _ _), h]

theorem segments_some (h : t.findSpecial text = some (n, s)) : t.segments text =
    stretchOf (text.take n) ++ ⟨s.1, some s.2⟩ :: t.segments (text.drop (n + s.1.length)) := by
  have hlt := findSpecial_lt h
  have htext : text ≠ [] := by
    rintro rfl
    cases h
  obtain ⟨k, hk⟩ : ∃ k, text.length = k + 1 :=
    Nat.exists_eq_add_of_le' (List.length_pos_iff.mpr htext)
  have hstretch : (if n > 0 then [⟨text.take n, none⟩] else []) = stretchOf (text.take n) := by
    unfold stretchOf
    by_cases hn : n > 0
    · rw [if_pos hn, if_neg]
      rw [List.take_eq_nil_iff]
      rintro (hzero | hnil)
      · exact hn.ne' hzero
      · exact htext hnil
    · rw [if_neg hn, if_pos]
      rw [Nat.eq_zero_of_not_pos hn, List.take_zero]
  unfold segments
  rw [hk, segmentsFrom, if_neg htext, h]
  dsimp only
  rw [hstretch, segmentsFrom_fuel (Nat.le_of_lt_succ (hlt.trans_eq hk)) le_rfl]

theorem flatMap_stretchOf (text : Bytes) : (stretchOf text).flatMap Segment.text = text := by
  unfold stretchOf
  split_ifs with h
  · exact h.symm
  · exact List.append_nil _

/-! ## What the segments are -/

/-- Inside a special text no special text begins. -/
theorem not_occursAt_inside {after : Bytes} (hv : v ∈ candidates) (hw : w ∈ candidates)
    (hi : 0 < i) (hlt : i < v.length) : ¬ OccursAt w (v ++ after) i := by
  obtain ⟨tail, rfl, htail⟩ := exists_of_candidate hv
  obtain ⟨wtail, rfl, -⟩ := exists_of_candidate hw
  rintro ⟨rest, hrest⟩
  rw [List.drop_append_of_le_length hlt.le, List.drop_eq_getElem_cons hlt, List.cons_append] at hrest
  have hhead := List.head_eq_of_cons_eq hrest
  obtain ⟨j, rfl⟩ := Nat.exists_eq_add_of_le' hi
  rw [List.getElem_cons_succ] at hhead
  exact htail (hhead ▸ List.getElem_mem _)

theorem splits_stretchOf (h : t.findSpecial text = none) : t.Splits text (stretchOf text) where
  covers := flatMap_stretchOf text
  special := by
    intro seg hseg id hid
    unfold stretchOf at hseg
    split_ifs at hseg
    · cases hseg
    · rw [List.mem_singleton.mp hseg] at hid
      cases hid
  stretch := by
    intro seg hseg _
    unfold stretchOf at hseg
    split_ifs at hseg with htext
    · cases hseg
    · rw [List.mem_singleton.mp hseg]
      exact htext
  maximal := by
    unfold stretchOf
    split_ifs
    · exact List.IsChain.nil
    · exact List.IsChain.singleton _
  recognized := fun w id i hw hat => absurd hat (findSpecial_none h hw)

/-- One turn of the loop. -/
theorem Splits.step (before : Bytes) {after : Bytes} {segs : List Segment} (hs : t.Special s.1 s.2)
    (hfirst : ∀ i < before.length, ∀ w id, t.Special w id → ¬ OccursAt w (before ++ (s.1 ++ after)) i)
    (h : t.Splits after segs) :
    t.Splits (before ++ (s.1 ++ after)) (stretchOf before ++ ⟨s.1, some s.2⟩ :: segs) where
  covers := by
    rw [List.flatMap_append, List.flatMap_cons, flatMap_stretchOf, h.covers]
  special := by
    intro seg hseg id hid
    rcases List.mem_append.mp hseg with hseg | hseg
    · unfold stretchOf at hseg
      split_ifs at hseg
      · cases hseg
      · rw [List.mem_singleton.mp hseg] at hid
        cases hid
    · rcases List.mem_cons.mp hseg with rfl | hseg
      · rw [← Option.some.inj hid]
        exact hs
      · exact h.special seg hseg id hid
  stretch := by
    intro seg hseg hid
    rcases List.mem_append.mp hseg with hseg | hseg
    · unfold stretchOf at hseg
      split_ifs at hseg with htext
      · cases hseg
      · rw [List.mem_singleton.mp hseg]
        exact htext
    · rcases List.mem_cons.mp hseg with rfl | hseg
      · cases hid
      · exact h.stretch seg hseg hid
  maximal := by
    have hrest : (⟨s.1, some s.2⟩ :: segs).IsChain
        fun a b : Segment => a.specialId.isSome ∨ b.specialId.isSome := by
      have hmaximal := h.maximal
      cases segs with
      | nil => exact List.IsChain.singleton _
      | cons seg segs => exact List.isChain_cons_cons.mpr ⟨Or.inl rfl, hmaximal⟩
    unfold stretchOf
    split_ifs
    · exact hrest
    · exact List.isChain_cons_cons.mpr ⟨Or.inr rfl, hrest⟩
  recognized := by
    intro w id i hw hat
    rcases lt_trichotomy i before.length with hlt | rfl | hgt
    · exact absurd hat (hfirst i hlt w id hw)
    · -- the special token that was found
      have hstart : w <+: s.1 ++ after := by
        have hat' := (occursAt_append_left (i := 0)).mp hat
        exact hat'
      have heq := special_unique hw.1 hs.1 hstart (List.prefix_append _ _)
      have hid := hw.2
      rw [heq, hs.2] at hid
      refine ⟨stretchOf before, segs, ?_, ?_⟩
      · rw [heq, Option.some.inj hid]
      · rw [flatMap_stretchOf]
    · obtain ⟨k, rfl⟩ := Nat.exists_eq_add_of_lt hgt
      rw [Nat.add_assoc, occursAt_append_left] at hat
      by_cases hinside : k + 1 < s.1.length
      · exact absurd hat (not_occursAt_inside hs.1 hw.1 (Nat.succ_pos k) hinside)
      · -- behind it
        obtain ⟨j, hj⟩ := Nat.exists_eq_add_of_le (not_lt.mp hinside)
        rw [hj, occursAt_append_left] at hat
        obtain ⟨segs₁, segs₂, hsegs, hlength⟩ := h.recognized w id j hw hat
        refine ⟨stretchOf before ++ ⟨s.1, some s.2⟩ :: segs₁, segs₂, ?_, ?_⟩
        · rw [hsegs, List.append_assoc, List.cons_append]
        · rw [List.flatMap_append, List.flatMap_cons, flatMap_stretchOf, List.length_append,
            List.length_append, hlength, Nat.add_assoc before.length, hj]

/-- **The loop cuts a text into its special tokens and the stretches between them.** -/
theorem splits_segments (t : QwenTokenizer) (text : Bytes) : t.Splits text (t.segments text) := by
  induction hlength : text.length using Nat.strongRecOn generalizing text with
  | ind length ih =>
      cases hfind : t.findSpecial text with
      | none =>
          rw [segments_none hfind]
          exact splits_stretchOf hfind
      | some found =>
          obtain ⟨n, s⟩ := found
          obtain ⟨hs, -, hfirst⟩ := findSpecial_some hfind
          obtain ⟨after, htext, hn, hdrop⟩ := findSpecial_split hfind
          have hlt := findSpecial_lt hfind
          have hrest := ih _ (hlength ▸ hlt) (text.drop (n + s.1.length)) rfl
          rw [segments_some hfind]
          rw [hdrop] at hrest ⊢
          have hstep := Splits.step (text.take n) hs (by rwa [← hn, ← htext]) hrest
          rwa [← htext] at hstep

/-! ## Cutting a text before a special token -/

/-- A text that begins with a special token adds none to the text before it. -/
theorem specialAt_append (hb : w <+: b) (hw : w ∈ candidates) (c : Byte) (a : Bytes) :
    t.specialAt (c :: a ++ b) = t.specialAt (c :: a) := by
  have hsame : ∀ v ∈ candidates, v <+: c :: a ++ b ↔ v <+: c :: a := by
    intro v hv
    refine ⟨fun h => ?_, fun h => h.trans (List.prefix_append _ _)⟩
    by_cases hle : v.length ≤ (c :: a).length
    · exact List.prefix_of_prefix_length_le h (List.prefix_append _ _) hle
    · -- it would run over the first byte of what follows
      obtain ⟨rest, hrest⟩ := h
      have hat : OccursAt w (v ++ rest) (c :: a).length := by
        unfold OccursAt
        rw [hrest, List.drop_left]
        exact hb
      exact absurd hat (not_occursAt_inside hv hw (Nat.succ_pos _) (not_le.mp hle))
  apply Option.ext
  rintro ⟨v, id⟩
  rw [specialAt_eq_some, specialAt_eq_some]
  constructor
  · rintro ⟨hv, h⟩
    exact ⟨hv, (hsame v hv.1).mp h⟩
  · rintro ⟨hv, h⟩
    exact ⟨hv, (hsame v hv.1).mpr h⟩

theorem findSpecial_append (hb : w <+: b) (hw : t.Special w id) (a : Bytes) :
    t.findSpecial (a ++ b) = (t.findSpecial a).or (some (a.length, w, id)) := by
  induction a with
  | nil =>
      have hat := specialAt_eq_some.mpr ⟨hw, hb⟩
      obtain ⟨rest, rfl⟩ := hb
      obtain ⟨tail, rfl, -⟩ := exists_of_candidate hw.1
      rw [List.cons_append] at hat
      rw [List.nil_append, List.cons_append, findSpecial_cons, hat]
      rfl
  | cons c a ih =>
      rw [List.cons_append, findSpecial_cons, findSpecial_cons, ← List.cons_append,
        specialAt_append hb hw.1]
      cases t.specialAt (c :: a) with
      | some s => rfl
      | none =>
          dsimp only
          rw [ih]
          cases t.findSpecial a with
          | some found => rfl
          | none => rfl

/-- **Before a special token a text can be cut**: the segments are those of the parts. -/
theorem segments_append (hb : w <+: b) (hw : t.Special w id) (a : Bytes) :
    t.segments (a ++ b) = t.segments a ++ t.segments b := by
  induction hlength : a.length using Nat.strongRecOn generalizing a with
  | ind length ih =>
      have hfind := findSpecial_append hb hw a
      cases hfirst : t.findSpecial a with
      | none =>
          -- the special token that follows ends the stretch
          obtain ⟨rest, rfl⟩ := hb
          rw [hfirst, Option.none_or] at hfind
          have hnext : t.findSpecial (w ++ rest) = some (0, w, id) := by
            have h := findSpecial_append (List.prefix_append w rest) hw []
            rwa [List.nil_append] at h
          rw [segments_some hfind, segments_some hnext, segments_none hfirst, List.take_left,
            List.take_zero, Nat.zero_add, List.drop_length_add_append]
          rfl
      | some found =>
          obtain ⟨n, s⟩ := found
          rw [hfirst, Option.some_or] at hfind
          have hlt := findSpecial_lt hfirst
          obtain ⟨hs, hn, -⟩ := findSpecial_some hfirst
          obtain ⟨tail, hcons, -⟩ := exists_of_candidate hs.1
          have hle := hn.le (by rw [hcons]; exact List.cons_ne_nil _ _)
          rw [segments_some hfind, segments_some hfirst, List.drop_append_of_le_length hle,
            ih _ (hlength ▸ hlt) _ rfl, List.take_append_of_le_length (by omega), List.append_assoc,
            List.cons_append]

end QwenTokenizer

end Qw3.Tokenizer
