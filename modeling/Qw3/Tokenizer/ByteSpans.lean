import Mathlib.Data.List.Sort
import Qw3.Lib.Pieces
import Qw3.Lib.Steps
import Qw3.Tokenizer.Encode

/-!
# Byte spans through normalization

`normalize_byte_spans` (`normalized_byte_spans.hpp`) carries spans of a text to its
normal form.  `utf8proc` finds the grapheme clusters of the text, each of which is
normalized alone.

Two properties of the normalization are used.  The clusters, normalized alone, make
up the normal form of the text; the function looks, and throws where they do not.
And normal forms are closed under substrings, so the clusters of a text in normal
form are in normal form (`KeepsClusters`).  The function does not look at this one:
a text that is its own normal form keeps its spans as they are given, without a
sweep over its clusters.

* `eachCluster` — the loop over the code points; `graphemes` are the clusters it finds.
* `appendCluster` — a cluster: the boundaries up to its end are assigned.
* `normalizeByteSpans` — the function.
* `sweep_spec` — the loop assigns to each boundary where `Pieces.carry` has it.
* `Maps`, `Exact` — what the spans of the normal form have to do with those given.
* `normalizeByteSpans_spec` — spans stay spans, and what they contain stays in them.
-/

namespace Qw3.Tokenizer

/-! ## The source -/

/-- `TextByteSpan`. -/
structure TextByteSpan where
  (begin' end' : ℕ)
  deriving DecidableEq, Repr

/-- `NormalizedByteSpans`. -/
structure NormalizedByteSpans where
  text : Bytes
  spans : List TextByteSpan
  roundedBoundaries : ℕ
  deriving DecidableEq, Repr

/-- `utf8proc_iterate`, with the bytes it reads and the code point, and
`utf8proc_grapheme_break_stateful`. -/
structure Utf8proc where
  iterate : Bytes → Option (ℕ × ℤ)
  iterate_le : ∀ {text n c}, iterate text = some (n, c) → 0 < n ∧ n ≤ text.length
  graphemeBreakStateful : ℤ → ℤ → ℤ → Bool × ℤ

/-- `Boundary`. -/
structure Boundary where
  byte : ℕ
  span : ℕ
  isEnd : Bool
  deriving DecidableEq, Repr

/-- The boundaries of the spans, in the order of the spans. -/
def boundariesFrom : ℕ → List TextByteSpan → List Boundary
  | _, [] => []
  | i, s :: spans => ⟨s.begin', i, false⟩ :: ⟨s.end', i, true⟩ :: boundariesFrom (i + 1) spans

/-- The bytes of a text between two offsets. -/
def cut (text : Bytes) (r : ℕ × ℕ) : Bytes := (text.drop r.1).take (r.2 - r.1)

/-- What the lambda `append_cluster` works on: the normal form so far, the boundaries from
`next` on, and the output. -/
structure Sweep where
  joined : Bytes
  boundaries : List Boundary
  spans : List TextByteSpan
  rounded : ℕ

/-- The assignment of a value to the boundary's field. -/
def Boundary.assign (b : Boundary) (value : ℕ) (spans : List TextByteSpan) : List TextByteSpan :=
  spans.modify b.span fun s => if b.isEnd then { s with end' := value } else { s with begin' := value }

/-- The loop of `append_cluster` over the boundaries up to the end of a cluster, which is
mapped to the normal form `p.2` at `mappedBegin`. -/
def assignBoundaries (begin' mappedBegin : ℕ) (p : Bytes × Bytes) : List Boundary → Sweep → Sweep
  | [], s => { s with boundaries := [] }
  | b :: bs, s =>
      let end' := begin' + p.1.length
      let mappedEnd := mappedBegin + p.2.length
      if b.byte ≤ end' then
        let value :=
          if b.byte = begin' then mappedBegin
          else if b.byte = end' then mappedEnd
          else if p.1 = p.2 then mappedBegin + b.byte - begin'
          else if b.isEnd then mappedEnd else mappedBegin
        let rounds := b.byte ≠ begin' ∧ b.byte ≠ end' ∧ p.1 ≠ p.2
        assignBoundaries begin' mappedBegin p bs { s with
          spans := b.assign value s.spans
          rounded := if rounds then s.rounded + 1 else s.rounded }
      else { s with boundaries := b :: bs }

section Definitions

variable (nfc : Nfc) (u : Utf8proc)

/-- `append_cluster`. -/
def appendCluster (text : Bytes) (begin' end' : ℕ) (s : Sweep) : Except String Sweep :=
  let original := cut text (begin', end')
  (qwenNormalizeUtf8 nfc original).map fun normalized =>
    assignBoundaries begin' s.joined.length (original, normalized) s.boundaries
      { s with joined := s.joined ++ normalized }

/-- The loop over the code points, with what is done to each cluster. -/
def eachCluster {α : Type} (f : ℕ → ℕ → α → Except String α) (text : Bytes) (cluster cursor : ℕ)
    (previous state : ℤ) (acc : α) : Except String α :=
  if _hcursor : cursor < text.length then
    match _hread : u.iterate (text.drop cursor) with
    | none => .error "invalid UTF-8 in semantic text"
    | some (bytes, current) =>
        if 0 ≤ previous then
          let r := u.graphemeBreakStateful previous current state
          if r.1 then
            match f cluster cursor acc with
            | .error what => .error what
            | .ok acc => eachCluster f text cursor (cursor + bytes) current r.2 acc
          else eachCluster f text cluster (cursor + bytes) current r.2 acc
        else eachCluster f text cluster (cursor + bytes) current state acc
  else f cluster cursor acc
termination_by text.length - cursor
decreasing_by
  all_goals
    have := (u.iterate_le _hread).1
    omega

/-- `normalize_byte_spans`. -/
def normalizeByteSpans (text : Bytes) (spans : List TextByteSpan) : Except String NormalizedByteSpans :=
  match qwenNormalizeUtf8 nfc text with
  | .error what => .error what
  | .ok normalized =>
      if ∃ s ∈ spans, s.end' < s.begin' ∨ text.length < s.end' then
        .error "semantic byte span is outside its text"
      else if normalized = text ∨ spans = [] then .ok ⟨normalized, spans, 0⟩
      else
        let boundaries := (boundariesFrom 0 spans).mergeSort fun a b => a.byte ≤ b.byte
        match eachCluster u (appendCluster nfc text) text 0 0 (-1) 0 ⟨[], boundaries, spans, 0⟩ with
        | .error what => .error what
        | .ok s =>
            if s.joined ≠ normalized ∨ s.boundaries ≠ [] then
              .error "NFC semantic boundary mapping did not cover the normalized text"
            else
              .ok ⟨normalized,
                List.zipWith (fun given out =>
                  if given.begin' = given.end' then { out with end' := out.begin' } else out) spans s.spans,
                s.rounded⟩

/-- The clusters that the loop finds. -/
def graphemes (text : Bytes) : Except String (List (ℕ × ℕ)) :=
  eachCluster u (fun begin' end' found => .ok (found ++ [(begin', end')])) text 0 0 (-1) 0 []

/-- The clusters, each with its normal form. -/
def normalizedClusters (text : Bytes) : Except String (Pieces Byte) :=
  match graphemes u text with
  | .error what => .error what
  | .ok ranges => ranges.mapM fun r => (qwenNormalizeUtf8 nfc (cut text r)).map fun n => (cut text r, n)

/-- The clusters of a text in normal form are in normal form. -/
def Nfc.KeepsClusters : Prop :=
  ∀ {text : Bytes} {ranges : List (ℕ × ℕ)}, nfc.map text = .ok text → graphemes u text = .ok ranges →
    ∀ r ∈ ranges, nfc.map (cut text r) = .ok (cut text r)

end Definitions

/-! ## The clusters -/

/-- Ranges from an offset to another, one after the other, none of them empty. -/
def Consecutive : ℕ → List (ℕ × ℕ) → ℕ → Prop
  | a, [], b => a = b
  | a, r :: rs, b => r.1 = a ∧ a < r.2 ∧ Consecutive r.2 rs b

section Clusters

variable {u : Utf8proc} {text : Bytes} {cluster cursor : ℕ} {previous state : ℤ}

/-- A turn of the loop that reads a code point. -/
theorem eachCluster_read {α : Type} (f : ℕ → ℕ → α → Except String α) {bytes : ℕ} {current : ℤ}
    (hcursor : cursor < text.length) (hread : u.iterate (text.drop cursor) = some (bytes, current))
    (acc : α) :
    eachCluster u f text cluster cursor previous state acc =
      if 0 ≤ previous then
        if (u.graphemeBreakStateful previous current state).1 then
          match f cluster cursor acc with
          | .error what => .error what
          | .ok acc => eachCluster u f text cursor (cursor + bytes) current
              (u.graphemeBreakStateful previous current state).2 acc
        else eachCluster u f text cluster (cursor + bytes) current
          (u.graphemeBreakStateful previous current state).2 acc
      else eachCluster u f text cluster (cursor + bytes) current state acc := by
  rw [eachCluster, dif_pos hcursor]
  split
  next hnone =>
    rw [hread] at hnone
    cases hnone
  next hsome =>
    rw [hread] at hsome
    cases hsome
    rfl

/-- What the loop does is what it finds, one range after the other. -/
theorem eachCluster_found {α : Type} {f : ℕ → ℕ → α → Except String α} {found found' : List (ℕ × ℕ)}
    (hle : cursor ≤ text.length) (hpos : cluster < cursor ∨ cursor = 0 ∧ cluster = 0 ∧ previous < 0)
    (htext : text ≠ [])
    (h : eachCluster u (fun begin' end' found => .ok (found ++ [(begin', end')])) text cluster cursor
      previous state found = .ok found') :
    ∃ ranges, found' = found ++ ranges ∧ Consecutive cluster ranges text.length ∧
      ∀ acc, eachCluster u f text cluster cursor previous state acc =
        ranges.foldlM (fun acc r => f r.1 r.2 acc) acc := by
  induction hn : text.length - cursor using Nat.strong_induction_on
    generalizing cluster cursor previous state found with
  | _ n ih =>
      rw [eachCluster] at h
      split at h
      next hcursor =>
        split at h
        next hread => cases h
        next bytes current hread =>
          obtain ⟨hbytes, hmore⟩ := u.iterate_le hread
          rw [List.length_drop] at hmore
          have hend : cursor + bytes ≤ text.length := by omega
          have hless : text.length - (cursor + bytes) < n := by omega
          split at h
          next hprevious =>
            have hlt : cluster < cursor := by omega
            dsimp only at h
            split at h
            next hbreak =>
              obtain ⟨ranges, rfl, hranges, hall⟩ := ih _ hless hend (.inl (by omega)) h rfl
              refine ⟨(cluster, cursor) :: ranges, List.append_assoc _ _ _, ⟨rfl, hlt, hranges⟩, ?_⟩
              intro acc
              rw [eachCluster_read f hcursor hread, if_pos hprevious, if_pos hbreak, List.foldlM_cons]
              cases f cluster cursor acc with
              | error what => rfl
              | ok acc => exact hall acc
            next hbreak =>
              obtain ⟨ranges, rfl, hranges, hall⟩ := ih _ hless hend (.inl (by omega)) h rfl
              refine ⟨ranges, rfl, hranges, ?_⟩
              intro acc
              rw [eachCluster_read f hcursor hread, if_pos hprevious, if_neg hbreak, hall acc]
          next hprevious =>
            obtain ⟨ranges, rfl, hranges, hall⟩ := ih _ hless hend (.inl (by omega)) h rfl
            refine ⟨ranges, rfl, hranges, ?_⟩
            intro acc
            rw [eachCluster_read f hcursor hread, if_neg hprevious, hall acc]
      next hcursor =>
        obtain rfl := Except.ok.inj h
        have htotal := List.length_pos_iff.mpr htext
        have hend : cursor = text.length := by omega
        refine ⟨[(cluster, cursor)], rfl, ⟨rfl, by omega, hend⟩, ?_⟩
        intro acc
        rw [eachCluster, dif_neg hcursor, List.foldlM_cons]
        cases f cluster cursor acc with
        | error what => rfl
        | ok acc => rfl

variable {ranges : List (ℕ × ℕ)}

theorem Consecutive.le {a b : ℕ} (h : Consecutive a ranges b) : a ≤ b := by
  induction ranges generalizing a with
  | nil => exact le_of_eq h
  | cons r ranges ih => exact h.2.1.le.trans (ih h.2.2)

/-- Consecutive ranges of a text are its pieces. -/
theorem flatten_cut {a b : ℕ} (h : Consecutive a ranges b) :
    (ranges.map (cut text)).flatten = (text.drop a).take (b - a) := by
  induction ranges generalizing a with
  | nil =>
      obtain rfl := h
      rw [Nat.sub_self]
      rfl
  | cons r ranges ih =>
      obtain ⟨rfl, hlt, hrest⟩ := h
      have hle := hrest.le
      have hcut := ih hrest
      rw [List.map_cons, List.flatten_cons, hcut, cut, show b - r.1 = (r.2 - r.1) + (b - r.2) by omega,
        List.take_add, List.drop_drop, show r.1 + (r.2 - r.1) = r.2 by omega]

theorem length_cut {r : ℕ × ℕ} (hle : r.2 ≤ text.length) : (cut text r).length = r.2 - r.1 := by
  rw [cut, List.length_take, List.length_drop]
  omega

end Clusters

/-! ## The boundaries -/

/-- The boundary of a span that the sweep assigns. -/
def Boundary.value (L : Pieces Byte) (b : Boundary) : ℕ := Pieces.carry b.isEnd L b.byte

/-- The assignments of the sweep, for boundaries one after the other. -/
def assignAll (value : Boundary → ℕ) (bs : List Boundary) (spans : List TextByteSpan) : List TextByteSpan :=
  bs.foldl (fun spans b => b.assign (value b) spans) spans

section Boundaries

variable {K L : Pieces Byte} {p : Bytes × Bytes} {bs : List Boundary} {s : Sweep}

/-- A cluster takes the boundaries up to its end, each of which lies in no cluster before. -/
theorem assignBoundaries_spec (hK : ∀ p ∈ K, p.1 ≠ [])
    (hbs : ∀ b ∈ bs, K = [] ∨ (Pieces.source K).length < b.byte) :
    ∃ rounded, assignBoundaries (Pieces.source K).length (Pieces.image K).length p bs s =
      { s with
        boundaries := bs.dropWhile fun b => b.byte ≤ (Pieces.source K).length + p.1.length
        spans := assignAll (Boundary.value (K ++ p :: L))
          (bs.takeWhile fun b => b.byte ≤ (Pieces.source K).length + p.1.length) s.spans
        rounded := rounded } := by
  induction bs generalizing s with
  | nil => exact ⟨s.rounded, rfl⟩
  | cons b bs ih =>
      have hb := hbs b List.mem_cons_self
      rw [assignBoundaries]
      by_cases hle : b.byte ≤ (Pieces.source K).length + p.1.length
      · have hge : (Pieces.source K).length ≤ b.byte := by
          rcases hb with rfl | hb
          · exact Nat.zero_le _
          · exact hb.le
        have hvalue : (if b.byte = (Pieces.source K).length then (Pieces.image K).length
            else if b.byte = (Pieces.source K).length + p.1.length then
              (Pieces.image K).length + p.2.length
            else if p.1 = p.2 then (Pieces.image K).length + b.byte - (Pieces.source K).length
            else if b.isEnd then (Pieces.image K).length + p.2.length
            else (Pieces.image K).length) = b.value (K ++ p :: L) := by
          have hcarry : b.value (K ++ p :: L) = (Pieces.image K).length +
              Pieces.place b.isEnd p (b.byte - (Pieces.source K).length) := by
            rw [Boundary.value]
            conv_lhs => rw [← Nat.add_sub_of_le hge, Pieces.carry_append hK, Pieces.carry,
              if_pos (by omega)]
          rw [hcarry, Pieces.place]
          split_ifs <;> omega
        rw [if_pos hle, List.dropWhile_cons_of_pos (by simpa using hle),
          List.takeWhile_cons_of_pos (by simpa using hle)]
        dsimp only
        rw [hvalue]
        obtain ⟨rounded, h⟩ := ih (s := { s with
          spans := b.assign (b.value (K ++ p :: L)) s.spans
          rounded := if b.byte ≠ (Pieces.source K).length ∧
              b.byte ≠ (Pieces.source K).length + p.1.length ∧ p.1 ≠ p.2 then s.rounded + 1
            else s.rounded }) fun b hb => hbs b (List.mem_cons_of_mem _ hb)
        exact ⟨rounded, h⟩
      · refine ⟨s.rounded, ?_⟩
        rw [if_neg hle, List.dropWhile_cons_of_neg (by simpa using hle),
          List.takeWhile_cons_of_neg (by simpa using hle)]
        rfl

/-- A range of the text is a cluster with its normal form. -/
def ClusterAt (nfc : Nfc) (text : Bytes) (r : ℕ × ℕ) (p : Bytes × Bytes) : Prop :=
  p.1 = cut text r ∧ qwenNormalizeUtf8 nfc p.1 = .ok p.2

/-- **The sweep.** The clusters one after the other normalize the text, and assign to every
boundary where it is carried. -/
theorem sweep_spec {nfc : Nfc} {text : Bytes} {a : ℕ}
    (hranges : Consecutive a ranges text.length) (hL : List.Forall₂ (ClusterAt nfc text) ranges L)
    (hK : ∀ p ∈ K, p.1 ≠ []) (ha : (Pieces.source K).length = a) (hfirst : K = [] → ranges ≠ [])
    (hjoined : s.joined = Pieces.image K)
    (hsorted : s.boundaries.Pairwise fun b c => b.byte ≤ c.byte)
    (hbs : ∀ b ∈ s.boundaries, K = [] ∨ (Pieces.source K).length < b.byte)
    (htext : ∀ b ∈ s.boundaries, b.byte ≤ text.length) :
    ∃ rounded, ranges.foldlM (fun s r => appendCluster nfc text r.1 r.2 s) s =
      .ok ⟨Pieces.image (K ++ L), [], assignAll (Boundary.value (K ++ L)) s.boundaries s.spans, rounded⟩ := by
  induction ranges generalizing a K L s with
  | nil =>
      obtain rfl := List.forall₂_nil_left_iff.mp hL
      obtain rfl := hranges
      have hnone : s.boundaries = [] := by
        rw [List.eq_nil_iff_forall_not_mem]
        intro b hb
        have hle := htext b hb
        rcases hbs b hb with hnil | hlt
        · exact hfirst hnil rfl
        · omega
      refine ⟨s.rounded, ?_⟩
      rw [List.append_nil, ← hjoined, hnone]
      obtain ⟨joined, boundaries, spans, rounded⟩ := s
      obtain rfl : boundaries = [] := hnone
      rfl
  | cons r ranges ih =>
      obtain ⟨p, L, hp, hLs, rfl⟩ := List.forall₂_cons_left_iff.mp hL
      obtain ⟨hr, hlt, hrest⟩ := hranges
      have hlen : p.1.length = r.2 - r.1 := by
        rw [hp.1]
        exact length_cut hrest.le
      have hend : (Pieces.source K).length + p.1.length = r.2 := by omega
      have hnext : (Pieces.source (K ++ [p])).length = r.2 := by
        rw [Pieces.source_append, List.length_append, Pieces.source_cons, Pieces.source_nil,
          List.append_nil, hend]
      -- the boundaries behind this cluster are left
      have hleft : ∀ b ∈ s.boundaries.dropWhile fun b => b.byte ≤ r.2, r.2 < b.byte := by
        intro b hb
        have hhead := List.head?_dropWhile_not (fun b : Boundary => decide (b.byte ≤ r.2)) s.boundaries
        have hdrop := hsorted.sublist (List.dropWhile_sublist fun b : Boundary => decide (b.byte ≤ r.2))
        cases hboundaries : s.boundaries.dropWhile fun b => b.byte ≤ r.2 with
        | nil =>
            rw [hboundaries] at hb
            cases hb
        | cons c cs =>
            rw [hboundaries] at hhead hdrop hb
            have hc : r.2 < c.byte := by simpa using hhead
            rcases List.mem_cons.mp hb with rfl | hb
            · exact hc
            · exact hc.trans_le ((List.pairwise_cons.mp hdrop).1 b hb)
      obtain ⟨rounded, hassign⟩ := assignBoundaries_spec (L := L) (p := p)
        (s := { s with joined := s.joined ++ p.2 }) hK hbs
      rw [hend] at hassign
      have hcluster : appendCluster nfc text r.1 r.2 s =
          .ok ⟨Pieces.image (K ++ [p]), s.boundaries.dropWhile fun b => b.byte ≤ r.2,
            assignAll (Boundary.value (K ++ p :: L))
              (s.boundaries.takeWhile fun b => b.byte ≤ r.2) s.spans, rounded⟩ := by
        unfold appendCluster
        dsimp only
        have hcut : cut text (r.1, r.2) = p.1 := hp.1.symm
        rw [hcut, hp.2, hr, ← ha, hjoined]
        change Except.ok (assignBoundaries _ _ p _ _) = _
        rw [← hjoined] at hassign ⊢
        rw [hassign, Pieces.image_append, ← hjoined]
        simp
      have hK' : ∀ q ∈ K ++ [p], q.1 ≠ [] := by
        intro q hq
        rcases List.mem_append.mp hq with hq | hq
        · exact hK q hq
        · rw [List.mem_singleton.mp hq]
          exact List.length_pos_iff.mp (by omega)
      obtain ⟨rounded', hfold⟩ := ih (K := K ++ [p]) (s := ⟨Pieces.image (K ++ [p]),
          s.boundaries.dropWhile fun b => b.byte ≤ r.2,
          assignAll (Boundary.value (K ++ p :: L)) (s.boundaries.takeWhile fun b => b.byte ≤ r.2)
            s.spans, rounded⟩) hrest hLs hK' hnext (fun hnil => absurd hnil (by simp)) rfl
        (hsorted.sublist (List.dropWhile_sublist _))
        (fun b hb => .inr (by rw [hnext]; exact hleft b hb))
        (fun b hb => htext b ((List.dropWhile_sublist _).mem hb))
      refine ⟨rounded', ?_⟩
      rw [List.foldlM_cons, hcluster]
      change ranges.foldlM _ _ = _
      rw [hfold, List.append_assoc, List.singleton_append]
      congr 2
      unfold assignAll
      rw [← List.foldl_append, List.takeWhile_append_dropWhile]

/-! ## What is assigned -/

/-- The field of a boundary. -/
def TextByteSpan.at (isEnd : Bool) (s : TextByteSpan) : ℕ := if isEnd then s.end' else s.begin'

variable {value : Boundary → ℕ} {spans : List TextByteSpan} {b : Boundary} {i : ℕ} {isEnd : Bool}

theorem getElem?_assign (v : ℕ) : (b.assign v spans)[i]? = (spans[i]?).map fun s =>
    if b.span = i then if b.isEnd then { s with end' := v } else { s with begin' := v } else s := by
  unfold Boundary.assign
  rw [List.getElem?_modify, Option.map_eq_map]

theorem at_assign (hne : (b.span, b.isEnd) ≠ (i, isEnd)) (v : ℕ) :
    ((b.assign v spans)[i]?).map (TextByteSpan.at isEnd) = (spans[i]?).map (TextByteSpan.at isEnd) := by
  rw [getElem?_assign, Option.map_map]
  congr 1
  funext s
  by_cases hspan : b.span = i
  · -- the other field of the span
    have hend : b.isEnd ≠ isEnd := fun h => hne (by rw [hspan, h])
    rw [Function.comp_apply, if_pos hspan]
    cases hb : b.isEnd <;> cases hi : isEnd <;> simp_all [TextByteSpan.at]
  · rw [Function.comp_apply, if_neg hspan]

theorem at_assign_self (v : ℕ) :
    ((b.assign v spans)[b.span]?).map (TextByteSpan.at b.isEnd) = (spans[b.span]?).map fun _ => v := by
  rw [getElem?_assign, Option.map_map]
  congr 1
  funext s
  rw [Function.comp_apply, if_pos rfl]
  cases hb : b.isEnd <;> simp [TextByteSpan.at]

theorem at_assignAll_of_ne (hne : ∀ b ∈ bs, (b.span, b.isEnd) ≠ (i, isEnd)) :
    ((assignAll value bs spans)[i]?).map (TextByteSpan.at isEnd) =
      (spans[i]?).map (TextByteSpan.at isEnd) := by
  induction bs generalizing spans with
  | nil => rfl
  | cons b bs ih =>
      change ((assignAll value bs (b.assign (value b) spans))[i]?).map _ = _
      rw [ih fun b hb => hne b (List.mem_cons_of_mem _ hb), at_assign (hne b List.mem_cons_self)]

/-- A boundary that no other shares its field with gets its value. -/
theorem at_assignAll (hnodup : (bs.map fun b => (b.span, b.isEnd)).Nodup) (hb : b ∈ bs) :
    ((assignAll value bs spans)[b.span]?).map (TextByteSpan.at b.isEnd) =
      (spans[b.span]?).map fun _ => value b := by
  induction bs generalizing spans with
  | nil => cases hb
  | cons c bs ih =>
      rw [List.map_cons, List.nodup_cons] at hnodup
      change ((assignAll value bs (c.assign (value c) spans))[b.span]?).map _ = _
      rcases List.mem_cons.mp hb with rfl | hb
      · rw [at_assignAll_of_ne, at_assign_self]
        intro d hd heq
        exact hnodup.1 (heq ▸ List.mem_map_of_mem (f := fun b : Boundary => (b.span, b.isEnd)) hd)
      · rw [ih hnodup.2 hb, getElem?_assign, Option.map_map]
        rfl

/-! ## The boundaries of the spans -/

theorem boundariesFrom_mem {j n : ℕ} {s : TextByteSpan} (h : spans[j]? = some s) :
    ⟨s.begin', n + j, false⟩ ∈ boundariesFrom n spans ∧ ⟨s.end', n + j, true⟩ ∈ boundariesFrom n spans := by
  induction spans generalizing n j with
  | nil => cases h
  | cons c spans ih =>
      cases j with
      | zero =>
          obtain rfl := Option.some.inj h
          exact ⟨List.mem_cons_self, List.mem_cons_of_mem _ List.mem_cons_self⟩
      | succ j =>
          obtain ⟨hbegin, hend⟩ := ih (n := n + 1) (j := j) (by simpa using h)
          rw [show n + 1 + j = n + (j + 1) by omega] at hbegin hend
          exact ⟨List.mem_cons_of_mem _ (List.mem_cons_of_mem _ hbegin),
            List.mem_cons_of_mem _ (List.mem_cons_of_mem _ hend)⟩

theorem boundariesFrom_span {n : ℕ} (h : b ∈ boundariesFrom n spans) :
    n ≤ b.span ∧ ∃ s ∈ spans, b.byte = s.at b.isEnd := by
  induction spans generalizing n with
  | nil => cases h
  | cons c spans ih =>
      rw [boundariesFrom, List.mem_cons, List.mem_cons] at h
      rcases h with rfl | rfl | h
      · exact ⟨le_rfl, c, List.mem_cons_self, rfl⟩
      · exact ⟨le_rfl, c, List.mem_cons_self, rfl⟩
      · obtain ⟨hn, s, hs, hbyte⟩ := ih h
        exact ⟨by omega, s, List.mem_cons_of_mem _ hs, hbyte⟩

theorem boundariesFrom_nodup (n : ℕ) (spans : List TextByteSpan) :
    ((boundariesFrom n spans).map fun b => (b.span, b.isEnd)).Nodup := by
  induction spans generalizing n with
  | nil => exact List.nodup_nil
  | cons c spans ih =>
      have hlater : ∀ isEnd : Bool,
          (n, isEnd) ∉ (boundariesFrom (n + 1) spans).map fun b => (b.span, b.isEnd) := by
        intro isEnd hmem
        obtain ⟨b, hb, heq⟩ := List.mem_map.mp hmem
        have hspan := (boundariesFrom_span hb).1
        rw [(Prod.mk.inj heq).1] at hspan
        omega
      rw [boundariesFrom, List.map_cons, List.map_cons, List.nodup_cons, List.nodup_cons, List.mem_cons]
      exact ⟨by simp [hlater], hlater true, ih (n + 1)⟩

end Boundaries

/-! ## The spans -/

/-- Two maps of offsets take spans to spans, the one their begins and the other their ends;
an empty span stays empty. -/
structure Maps (f g : ℕ → ℕ) (spans out : List TextByteSpan) : Prop where
  length_eq : out.length = spans.length
  mono_begin : Monotone f
  mono_end : Monotone g
  begin_eq : ∀ {i : ℕ} {s t : TextByteSpan}, spans[i]? = some s → out[i]? = some t → t.begin' = f s.begin'
  end_eq : ∀ {i : ℕ} {s t : TextByteSpan}, spans[i]? = some s → out[i]? = some t → s.begin' ≠ s.end' → t.end' = g s.end'
  empty : ∀ {i : ℕ} {s t : TextByteSpan}, spans[i]? = some s → out[i]? = some t → s.begin' = s.end' → t.begin' = t.end'

/-- The maps are exact up to the clusters that are changed.  The text is the sources of the
clusters, its normal form their images. -/
structure Exact (L : Pieces Byte) (f g : ℕ → ℕ) (spans out : List TextByteSpan) : Prop where
  edge : ∀ K M : Pieces Byte, L = K ++ M →
    f (Pieces.source K).length = (Pieces.image K).length ∧
      g (Pieces.source K).length = (Pieces.image K).length
  inside : ∀ (K : Pieces Byte) (c : Bytes) (M : Pieces Byte), L = K ++ (c, c) :: M → ∀ x ≤ c.length,
    f ((Pieces.source K).length + x) = (Pieces.image K).length + x ∧
      g ((Pieces.source K).length + x) = (Pieces.image K).length + x
  covers : ∀ (K : Pieces Byte) (p : Bytes × Bytes) (M : Pieces Byte), L = K ++ p :: M → p.1 ≠ p.2 →
    ∀ {i : ℕ} {s t : TextByteSpan}, spans[i]? = some s → out[i]? = some t → s.begin' < s.end' →
      s.begin' < (Pieces.source K).length + p.1.length → (Pieces.source K).length < s.end' →
      t.begin' ≤ (Pieces.image K).length ∧ (Pieces.image K).length + p.2.length ≤ t.end'
  keeps : ∀ (K : Pieces Byte) (c : Bytes) (M : Pieces Byte), L = K ++ (c, c) :: M → ∀ x < c.length,
    ∀ {i : ℕ} {s t : TextByteSpan}, spans[i]? = some s → out[i]? = some t → s.begin' < s.end' →
      (t.begin' ≤ (Pieces.image K).length + x ∧ (Pieces.image K).length + x < t.end' ↔
        s.begin' ≤ (Pieces.source K).length + x ∧ (Pieces.source K).length + x < s.end')

/-! ## The function -/

section Function

variable {nfc : Nfc} {u : Utf8proc} {text : Bytes} {spans : List TextByteSpan} {L : Pieces Byte}

/-- The clusters of a text, none of them empty, and what the function does to each. -/
theorem normalizedClusters_spec (htext : text ≠ []) (h : normalizedClusters nfc u text = .ok L) :
    ∃ ranges, Consecutive 0 ranges text.length ∧ List.Forall₂ (ClusterAt nfc text) ranges L ∧
      ∀ s, eachCluster u (appendCluster nfc text) text 0 0 (-1) 0 s =
        ranges.foldlM (fun s r => appendCluster nfc text r.1 r.2 s) s := by
  unfold normalizedClusters at h
  split at h
  next => cases h
  next ranges hranges =>
    obtain ⟨ranges, rfl, hconsecutive, hall⟩ := eachCluster_found (f := appendCluster nfc text)
      (Nat.zero_le _) (.inr ⟨rfl, rfl, by omega⟩) htext hranges
    refine ⟨ranges, hconsecutive, ?_, hall⟩
    refine (Except.mapM_eq_ok.mp h).imp fun r p hp => ?_
    obtain ⟨n, hn, rfl⟩ := Except.map_eq_ok.mp hp
    exact ⟨rfl, hn⟩

theorem source_clusters (hranges : Consecutive 0 ranges text.length)
    (hL : List.Forall₂ (ClusterAt nfc text) ranges L) : Pieces.source L = text := by
  have hmap : ∀ {ranges L}, List.Forall₂ (ClusterAt nfc text) ranges L →
      L.map Prod.fst = ranges.map (cut text) := by
    intro ranges L hL
    induction hL with
    | nil => rfl
    | cons hp _ ih => rw [List.map_cons, List.map_cons, hp.1, ih]
  rw [Pieces.source, hmap hL, flatten_cut hranges, List.drop_zero, Nat.sub_zero, List.take_length]

theorem clusters_ne_nil {a b : ℕ} (hb : b ≤ text.length)
    (hranges : Consecutive a ranges b) (hL : List.Forall₂ (ClusterAt nfc text) ranges L) :
    ∀ p ∈ L, p.1 ≠ [] := by
  induction hL generalizing a with
  | nil =>
      intro p hp
      cases hp
  | @cons r p ranges L hp _ ih =>
      obtain ⟨hr, hlt, hrest⟩ := hranges
      intro q hq
      rcases List.mem_cons.mp hq with rfl | hq
      · rw [hp.1]
        have hlen : (cut text r).length = r.2 - r.1 := length_cut (hrest.le.trans hb)
        exact List.length_pos_iff.mp (by omega)
      · exact ih hrest q hq

theorem qwenNormalizeUtf8_eq_self : qwenNormalizeUtf8 nfc text = .ok text ↔ nfc.map text = .ok text := by
  unfold qwenNormalizeUtf8
  split_ifs with hascii
  · exact iff_of_true rfl (nfc.map_ascii text hascii)
  · cases nfc.map text with
    | error what => exact iff_of_false nofun nofun
    | ok normalized => exact Iff.rfl

/-- A text that is its own normal form has clusters that are. -/
theorem clusters_same (hkeep : nfc.KeepsClusters u) (hwhole : qwenNormalizeUtf8 nfc text = .ok text)
    (h : normalizedClusters nfc u text = .ok L) : ∀ p ∈ L, p.1 = p.2 := by
  unfold normalizedClusters at h
  split at h
  next => cases h
  next ranges hranges =>
    have hkept := hkeep (qwenNormalizeUtf8_eq_self.mp hwhole) hranges
    have hall := Except.mapM_eq_ok.mp h
    clear hranges h
    induction hall with
    | nil => exact List.forall_mem_nil _
    | @cons r p ranges L hpair _ ih =>
        obtain ⟨n, hn, rfl⟩ := Except.map_eq_ok.mp hpair
        rw [qwenNormalizeUtf8_eq_self.mpr (hkept r List.mem_cons_self)] at hn
        exact List.forall_mem_cons.mpr
          ⟨Except.ok.inj hn, ih fun r hr => hkept r (List.mem_cons_of_mem _ hr)⟩

/-- A span in its text. -/
def TextByteSpan.In (n : ℕ) (s : TextByteSpan) : Prop := s.begin' ≤ s.end' ∧ s.end' ≤ n

/-- Where a span is carried: its begin is rounded down and its end up, except for an empty
span. -/
def TextByteSpan.carry (L : Pieces Byte) (s : TextByteSpan) : TextByteSpan :=
  ⟨Pieces.carry false L s.begin',
    if s.begin' = s.end' then Pieces.carry false L s.begin' else Pieces.carry true L s.end'⟩

/-- The spans that the sweep leaves, the empty ones closed. -/
theorem assignAll_boundaries {bs : List Boundary} (hperm : bs.Perm (boundariesFrom 0 spans)) :
    List.zipWith (fun given out : TextByteSpan =>
        if given.begin' = given.end' then { out with end' := out.begin' } else out)
      spans (assignAll (Boundary.value L) bs spans) = spans.map (TextByteSpan.carry L) := by
  have hnodup : (bs.map fun b => (b.span, b.isEnd)).Nodup :=
    (hperm.map _).nodup_iff.mpr (boundariesFrom_nodup 0 spans)
  apply List.ext_getElem?
  intro i
  rw [List.getElem?_zipWith, List.getElem?_map]
  cases hs : spans[i]? with
  | none => rfl
  | some s =>
      obtain ⟨hbegin, hend⟩ := boundariesFrom_mem (n := 0) hs
      rw [Nat.zero_add] at hbegin hend
      have hb : ((assignAll (Boundary.value L) bs spans)[i]?).map (TextByteSpan.at false) =
          (spans[i]?).map fun _ => Pieces.carry false L s.begin' :=
        at_assignAll hnodup (hperm.mem_iff.mpr hbegin)
      have he : ((assignAll (Boundary.value L) bs spans)[i]?).map (TextByteSpan.at true) =
          (spans[i]?).map fun _ => Pieces.carry true L s.end' :=
        at_assignAll hnodup (hperm.mem_iff.mpr hend)
      rw [hs] at hb he
      obtain ⟨t, ht, htbegin⟩ := Option.map_eq_some_iff.mp hb
      obtain ⟨t', ht', htend⟩ := Option.map_eq_some_iff.mp he
      obtain rfl : t = t' := Option.some.inj (ht.symm.trans ht')
      change t.begin' = Pieces.carry false L s.begin' at htbegin
      change t.end' = Pieces.carry true L s.end' at htend
      rw [ht]
      simp only [Option.map_some, TextByteSpan.carry]
      split_ifs with hempty
      · rw [← htbegin]
      · rw [← htbegin, ← htend]

/-- Spans of the text pass the check. -/
theorem not_outside (hspans : ∀ s ∈ spans, s.In text.length) :
    ¬ ∃ s ∈ spans, s.end' < s.begin' ∨ text.length < s.end' := by
  rintro ⟨s, hs, h⟩
  have := hspans s hs
  unfold TextByteSpan.In at this
  omega

/-- The empty text is not changed. -/
theorem ne_nil_of_changed (hwhole : qwenNormalizeUtf8 nfc text = .ok (Pieces.image L))
    (hne : Pieces.image L ≠ text) : text ≠ [] := by
  rintro rfl
  rw [qwenNormalizeUtf8, if_pos (List.forall_mem_nil _)] at hwhole
  exact hne (Except.ok.inj hwhole).symm

theorem boundaries_sorted (spans : List TextByteSpan) :
    ((boundariesFrom 0 spans).mergeSort fun a b => a.byte ≤ b.byte).Pairwise
      fun b c => b.byte ≤ c.byte := by
  have htrans : ∀ a b c : Boundary, decide (a.byte ≤ b.byte) → decide (b.byte ≤ c.byte) →
      decide (a.byte ≤ c.byte) := by
    intro a b c
    simpa using Nat.le_trans
  have htotal : ∀ a b : Boundary, decide (a.byte ≤ b.byte) || decide (b.byte ≤ a.byte) := by
    intro a b
    simpa using Nat.le_total _ _
  exact (List.pairwise_mergeSort htrans htotal _).imp of_decide_eq_true

/-- The text is changed: the sweep covers it. -/
theorem normalizeByteSpans_changed (hspans : ∀ s ∈ spans, s.In text.length)
    (hL : normalizedClusters nfc u text = .ok L)
    (hwhole : qwenNormalizeUtf8 nfc text = .ok (Pieces.image L)) (hne : Pieces.image L ≠ text) :
    ∃ rounded, normalizeByteSpans nfc u text spans =
      .ok ⟨Pieces.image L, spans.map (TextByteSpan.carry L), rounded⟩ := by
  unfold normalizeByteSpans
  rw [hwhole]
  dsimp only
  rw [if_neg (not_outside hspans)]
  by_cases hnil : spans = []
  · refine ⟨0, ?_⟩
    rw [if_pos (.inr hnil), hnil]
    rfl
  have htext := ne_nil_of_changed hwhole hne
  obtain ⟨ranges, hranges, hclusters, heach⟩ := normalizedClusters_spec htext hL
  have hfirst : ranges ≠ [] := by
    rintro rfl
    exact htext (List.length_eq_zero_iff.mp (Eq.symm hranges))
  have hperm := List.mergeSort_perm (boundariesFrom 0 spans) fun a b => a.byte ≤ b.byte
  have hbyte : ∀ b ∈ (boundariesFrom 0 spans).mergeSort fun a b => a.byte ≤ b.byte,
      b.byte ≤ text.length := by
    intro b hb
    obtain ⟨-, s, hs, hbyte⟩ := boundariesFrom_span (hperm.mem_iff.mp hb)
    have := hspans s hs
    unfold TextByteSpan.In at this
    rw [hbyte, TextByteSpan.at]
    split <;> omega
  obtain ⟨rounded, hsweep⟩ := sweep_spec (K := [])
    (s := ⟨[], (boundariesFrom 0 spans).mergeSort fun a b => a.byte ≤ b.byte, spans, 0⟩) hranges hclusters
    (List.forall_mem_nil _) rfl (fun _ => hfirst) rfl (boundaries_sorted spans) (fun _ _ => .inl rfl) hbyte
  refine ⟨rounded, ?_⟩
  rw [if_neg (not_or.mpr ⟨hne, hnil⟩), heach, hsweep, List.nil_append]
  dsimp only
  rw [if_neg (by simp), assignAll_boundaries hperm]

/-- The text is left alone, and its spans are. -/
theorem normalizeByteSpans_unchanged (hspans : ∀ s ∈ spans, s.In text.length)
    (hwhole : qwenNormalizeUtf8 nfc text = .ok text) :
    normalizeByteSpans nfc u text spans = .ok ⟨text, spans, 0⟩ := by
  unfold normalizeByteSpans
  rw [hwhole]
  dsimp only
  rw [if_neg (not_outside hspans), if_pos (.inl rfl)]

theorem maps_carry : Maps (Pieces.carry false L) (Pieces.carry true L) spans
    (spans.map (TextByteSpan.carry L)) := by
  have hat : ∀ {i : ℕ} {s t : TextByteSpan}, spans[i]? = some s →
      (spans.map (TextByteSpan.carry L))[i]? = some t → t = s.carry L := by
    intro i s t hs ht
    rw [List.getElem?_map, hs] at ht
    exact (Option.some.inj ht).symm
  refine ⟨List.length_map _, Pieces.carry_mono, Pieces.carry_mono, ?_, ?_, ?_⟩
  · intro i s t hs ht
    rw [hat hs ht]
    rfl
  · intro i s t hs ht hne
    rw [hat hs ht]
    exact if_neg hne
  · intro i s t hs ht hempty
    rw [hat hs ht]
    exact (if_pos hempty).symm

theorem maps_id : Maps id id spans spans := by
  have hat : ∀ {i : ℕ} {s t : TextByteSpan}, spans[i]? = some s → spans[i]? = some t → t = s :=
    fun hs ht => Option.some.inj (ht.symm.trans hs)
  refine ⟨rfl, monotone_id, monotone_id, ?_, ?_, ?_⟩
  · intro i s t hs ht
    rw [hat hs ht]
    rfl
  · intro i s t hs ht _
    rw [hat hs ht]
    rfl
  · intro i s t hs ht hempty
    rwa [hat hs ht]

/-- Carried, the spans are exact up to the clusters that are changed. -/
theorem exact_carry (hne : ∀ p ∈ L, p.1 ≠ []) : Exact L (Pieces.carry false L) (Pieces.carry true L) spans
    (spans.map (TextByteSpan.carry L)) := by
  have hat : ∀ {i : ℕ} {s t : TextByteSpan}, spans[i]? = some s →
      (spans.map (TextByteSpan.carry L))[i]? = some t → s.begin' < s.end' →
      t.begin' = Pieces.carry false L s.begin' ∧ t.end' = Pieces.carry true L s.end' := by
    intro i s t hs ht hlt
    exact ⟨maps_carry.begin_eq hs ht, maps_carry.end_eq hs ht hlt.ne⟩
  have hpre : ∀ {K M : Pieces Byte}, L = K ++ M → ∀ p ∈ K, p.1 ≠ [] := by
    rintro K M rfl p hp
    exact hne p (List.mem_append_left _ hp)
  refine ⟨?_, ?_, ?_, ?_⟩
  · rintro K M rfl
    exact ⟨Pieces.carry_edge (hpre rfl), Pieces.carry_edge (hpre rfl)⟩
  · rintro K c M rfl x hx
    exact ⟨Pieces.carry_unchanged (hpre rfl) hx, Pieces.carry_unchanged (hpre rfl) hx⟩
  · rintro K p M rfl hp i s t hs ht hlt hb he
    obtain ⟨hbegin, hend⟩ := hat hs ht hlt
    rw [hbegin, hend]
    exact Pieces.carry_covers (hpre rfl) (hne p (by simp)) hp hb he
  · rintro K c M rfl x hx i s t hs ht hlt
    obtain ⟨hbegin, hend⟩ := hat hs ht hlt
    rw [hbegin, hend]
    exact Pieces.carry_unchanged_iff (hpre rfl) hx

/-- Where no cluster is changed, the spans are exact as they are. -/
theorem exact_id (hsame : ∀ p ∈ L, p.1 = p.2) : Exact L id id spans spans := by
  have himage : ∀ {K M : Pieces Byte}, L = K ++ M → Pieces.image K = Pieces.source K := by
    rintro K M rfl
    unfold Pieces.image Pieces.source
    congr 1
    exact List.map_congr_left fun p hp => (hsame p (List.mem_append_left _ hp)).symm
  refine ⟨?_, ?_, ?_, ?_⟩
  · intro K M hL
    rw [himage hL]
    exact ⟨rfl, rfl⟩
  · intro K c M hL x _
    rw [himage hL]
    exact ⟨rfl, rfl⟩
  · intro K p M hL hp
    exact absurd (hsame p (hL ▸ by simp)) hp
  · intro K c M hL x _ i s t hs ht _
    obtain rfl : s = t := Option.some.inj (hs.symm.trans ht)
    rw [himage hL]

theorem In.carry {s : TextByteSpan} (hs : s.begin' ≤ s.end') : (s.carry L).In (Pieces.image L).length := by
  unfold TextByteSpan.carry TextByteSpan.In
  split_ifs with hempty
  · exact ⟨le_rfl, Pieces.carry_le⟩
  · exact ⟨(Pieces.carry_mono hs).trans Pieces.carry_false_le_true, Pieces.carry_le⟩

/-- **Byte spans through normalization.** Spans of a text are taken to spans of its normal
form by two monotone maps of their boundaries, and empty spans stay empty.  The maps are
exact at the edges of the clusters and in the clusters that are not changed, and the spans
contain the whole normal form of the changed clusters that they meet and exactly their part
of the others. -/
theorem normalizeByteSpans_spec (hkeep : nfc.KeepsClusters u) (hspans : ∀ s ∈ spans, s.In text.length)
    (hL : normalizedClusters nfc u text = .ok L)
    (hwhole : qwenNormalizeUtf8 nfc text = .ok (Pieces.image L)) :
    Pieces.source L = text ∧ ∃ out f g, normalizeByteSpans nfc u text spans = .ok out ∧
      out.text = Pieces.image L ∧ (∀ t ∈ out.spans, t.In (Pieces.image L).length) ∧
      Maps f g spans out.spans ∧ Exact L f g spans out.spans := by
  have hsource : Pieces.source L = text := by
    by_cases htext : text = []
    · subst htext
      have hgraphemes : graphemes u [] = .ok [(0, 0)] := by
        rw [graphemes, eachCluster, dif_neg (by simp)]
        rfl
      rw [normalizedClusters, hgraphemes] at hL
      rw [← Except.ok.inj hL]
      rfl
    · obtain ⟨ranges, hranges, hclusters, -⟩ := normalizedClusters_spec htext hL
      exact source_clusters hranges hclusters
  refine ⟨hsource, ?_⟩
  by_cases hne : Pieces.image L = text
  · rw [hne] at hwhole ⊢
    exact ⟨_, id, id, normalizeByteSpans_unchanged hspans hwhole, rfl, hspans, maps_id,
      exact_id (clusters_same hkeep hwhole hL)⟩
  · obtain ⟨rounded, hout⟩ := normalizeByteSpans_changed hspans hL hwhole hne
    have htext := ne_nil_of_changed hwhole hne
    obtain ⟨ranges, hranges, hclusters, -⟩ := normalizedClusters_spec htext hL
    refine ⟨_, _, _, hout, rfl, ?_, maps_carry, exact_carry (clusters_ne_nil le_rfl hranges hclusters)⟩
    intro t ht
    obtain ⟨s, hs, rfl⟩ := List.mem_map.mp ht
    exact In.carry (hspans s hs).1

end Function

/-- Code points of one and two bytes, of which the combining diacritical marks extend the
cluster before them. -/
def sampleUtf8proc : Utf8proc where
  iterate
    | [] => none
    | c :: rest =>
        if c < 0x80 then some (1, c.toNat)
        else match rest with
          | [] => none
          | d :: _ =>
              if 0xC2 ≤ c ∧ c < 0xE0 ∧ 0x80 ≤ d ∧ d < 0xC0 then
                some (2, (c.toNat - 0xC0) * 64 + (d.toNat - 0x80))
              else none
  iterate_le := by
    intro text n c h
    split at h
    next => cases h
    next =>
      split_ifs at h
      · cases h
        exact ⟨Nat.one_pos, Nat.succ_le_succ (Nat.zero_le _)⟩
      · split at h
        next => cases h
        next =>
          split_ifs at h
          cases h
          exact ⟨Nat.two_pos, Nat.succ_le_succ (Nat.succ_le_succ (Nat.zero_le _))⟩
  graphemeBreakStateful _ current state := (decide ¬ (0x300 ≤ current ∧ current < 0x370), state)

/-- A small `e` and an acute accent are composed. -/
def composeAcute : Bytes → Bytes
  | 0x65 :: 0xCC :: 0x81 :: rest => 0xC3 :: 0xA9 :: composeAcute rest
  | c :: rest => c :: composeAcute rest
  | [] => []

def acuteNfc : Nfc where
  map text := .ok (composeAcute text)
  map_ascii := by
    intro text h
    congr 1
    fun_induction composeAcute text with
    | case1 rest ih =>
        have hlt := h 0xCC (by simp)
        exact absurd hlt (by decide)
    | case2 c rest _ ih => rw [ih fun c hc => h c (List.mem_cons_of_mem _ hc)]
    | case3 => rfl

/-- What is composed has no parts left to compose. -/
theorem composeAcute_take {text : Bytes} (h : composeAcute text = text) (n : ℕ) :
    composeAcute (text.take n) = text.take n := by
  fun_induction composeAcute text generalizing n with
  | case1 rest ih => cases h
  | case2 c rest hpattern ih =>
      cases n with
      | zero => rfl
      | succ n =>
          rw [List.take_succ_cons, composeAcute, ih (List.cons.inj h).2 n]
          -- a letter and its accent at the cut would be in the text
          intro rest' hc hrest
          apply hpattern (rest' ++ rest.drop n) hc
          rw [← List.cons_append, ← List.cons_append, ← hrest, List.take_append_drop]
  | case3 => rw [List.take_nil, composeAcute]

theorem composeAcute_drop {text : Bytes} (h : composeAcute text = text) (n : ℕ) :
    composeAcute (text.drop n) = text.drop n := by
  fun_induction composeAcute text generalizing n with
  | case1 rest ih => cases h
  | case2 c rest hpattern ih =>
      cases n with
      | zero => rw [List.drop_zero, composeAcute.eq_2 c rest hpattern, h]
      | succ n => exact ih (List.cons.inj h).2 n
  | case3 => rw [List.drop_nil, composeAcute]

theorem acuteNfc_keepsClusters : acuteNfc.KeepsClusters sampleUtf8proc := by
  intro text ranges h _ r _
  have hsame : composeAcute text = text := Except.ok.inj h
  exact congrArg Except.ok (composeAcute_take (composeAcute_drop hsame r.1) (r.2 - r.1))

theorem normalizedClusters_acute : normalizedClusters acuteNfc sampleUtf8proc [0x65, 0xCC, 0x81, 0x21] =
    .ok [([0x65, 0xCC, 0x81], [0xC3, 0xA9]), ([0x21], [0x21])] := by
  have hgraphemes : graphemes sampleUtf8proc [0x65, 0xCC, 0x81, 0x21] = .ok [(0, 3), (3, 4)] := by
    have he : sampleUtf8proc.iterate [0x65, 0xCC, 0x81, 0x21] = some (1, 0x65) := by decide
    have hacute : sampleUtf8proc.iterate [0xCC, 0x81, 0x21] = some (2, 0x301) := by decide
    have hmark : sampleUtf8proc.iterate [0x21] = some (1, 0x21) := by decide
    rw [graphemes, eachCluster_read _ (by decide) he, if_neg (by decide),
      eachCluster_read _ (by decide) hacute, if_pos (by decide), if_neg (by decide),
      eachCluster_read _ (by decide) hmark, if_pos (by decide), if_pos (by decide)]
    dsimp only
    rw [eachCluster, dif_neg (by decide)]
    rfl
  rw [normalizedClusters, hgraphemes]
  rfl

/-- The two parts of a composed letter both become the letter. -/
theorem normalizeByteSpans_acute :
    let L : Pieces Byte := [([0x65, 0xCC, 0x81], [0xC3, 0xA9]), ([0x21], [0x21])]
    let spans : List TextByteSpan := [⟨0, 1⟩, ⟨1, 3⟩, ⟨3, 4⟩, ⟨1, 1⟩]
    Pieces.source L = [0x65, 0xCC, 0x81, 0x21] ∧ ∃ out f g,
      normalizeByteSpans acuteNfc sampleUtf8proc [0x65, 0xCC, 0x81, 0x21] spans = .ok out ∧
      out.text = Pieces.image L ∧ (∀ t ∈ out.spans, t.In (Pieces.image L).length) ∧
      Maps f g spans out.spans ∧ Exact L f g spans out.spans :=
  normalizeByteSpans_spec acuteNfc_keepsClusters (by unfold TextByteSpan.In; decide) normalizedClusters_acute rfl

end Qw3.Tokenizer
