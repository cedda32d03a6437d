import Qw3.Json.Dump
import Qw3.Json.Members
import Qw3.Vision.Records

/-!
# Incremental preparation

Preparing the messages after a cached prefix, against preparing all of them.

* `VisionWorker` — an encoder that gives each image one fixed grid, in the two
  forms the server calls.
* `Built` — the entries of a chain of requests.
* `Agree` — what the incremental preparation owes the whole one.
* `incrementalPreparation` — it does so unless the records that matched are
  written otherwise than the messages; `operator==` takes `1` for `1.0`.
-/

namespace Qw3

namespace Json

variable {F : FloatText}

/-- Text that goes on alike after equal items shows the items to be alike. -/
theorem alike_of_dumpItems_append {xs ys : List Json} (zs : List Json)
    (h : agreeItems Number.equal xs ys = true)
    (hd : dumpItems F (xs ++ zs) = dumpItems F (ys ++ zs)) :
    agreeItems Number.alike xs ys = true := by
  induction xs generalizing ys with
  | nil =>
    cases ys with
    | nil => rfl
    | cons y ys => simp [agreeItems] at h
  | cons x xs ih =>
    cases ys with
    | nil => simp [agreeItems] at h
    | cons y ys =>
      simp only [agreeItems, Bool.and_eq_true] at h ⊢
      simp only [List.cons_append, dumpItems, List.cons.injEq, true_and] at hd
      have ends : ∀ items, Ends (dumpItems F items) := by
        intro items
        simpa using ends_dumpItems F items []
      obtain ⟨hx, hrest⟩ := dump_cancel x y h.1 (ends _) (ends _) hd
      exact ⟨hx, ih h.2 hrest⟩

theorem dumpItems_append_of_alike (F : FloatText) {xs ys : List Json} (zs : List Json)
    (h : agreeItems Number.alike xs ys = true) :
    dumpItems F (xs ++ zs) = dumpItems F (ys ++ zs) := by
  induction xs generalizing ys with
  | nil =>
    cases ys with
    | nil => rfl
    | cons y ys => simp [agreeItems] at h
  | cons x xs ih =>
    cases ys with
    | nil => simp [agreeItems] at h
    | cons y ys =>
      rw [agreeItems, Bool.and_eq_true] at h
      rw [List.cons_append, List.cons_append, dumpItems, dumpItems, dump_eq_of_alike F x y h.1,
        ih h.2]

/-- Two arrays of one length have one text when their items have. -/
theorem dump_array_eq_iff {xs ys : List Json} (h : xs.length = ys.length) :
    (array xs).dump F = (array ys).dump F ↔ dumpItems F xs = dumpItems F ys := by
  cases xs with
  | nil =>
    cases ys with
    | nil => simp
    | cons y ys => cases h
  | cons x xs =>
    cases ys with
    | nil => cases h
    | cons y ys => simp [dump, dumpItems]

end Json

namespace Vision

/-! ## The server's encoder -/

section Worker

variable {ε : Type} [Inhabited ε] {grid : VisionImage → Grid}

/-- A vision worker: it encodes images, given as they are or as their sources, and
gives each its grid. -/
structure VisionWorker (ε : Type) (grid : VisionImage → Grid) where
  encode : List VisionImage → VisionEncoding ε
  encodeSources : List VisionImageSource → VisionEncoding ε
  encode_grids : ∀ images, (encode images).grids = images.map grid
  encodeSources_grids : ∀ sources,
    (encodeSources sources).grids = sources.map fun source => grid source.image

/-- `vision_encoder`. -/
def visionEncoder (worker : Option (VisionWorker ε grid)) :
    Option (List VisionImage → Except String (VisionEncoding ε)) :=
  worker.map fun w images => .ok (w.encode images)

/-- `prepared_vision_encoder`. -/
def preparedVisionEncoder (worker : Option (VisionWorker ε grid)) :
    Option (List VisionImageSource → Except String (VisionEncoding ε)) :=
  worker.map fun w sources => .ok (w.encodeSources sources)

/-- The entries that a chain of requests builds. -/
inductive Built (worker : Option (VisionWorker ε grid)) : Entry → Prop where
  | first {suffix : List Json} {messages : List Json} {candidate : Entry}
      {prepared : PreparedVisionRequest ε}
      (built : prepareVisionMessagesIncremental suffix (preparedVisionEncoder worker) none 0 =
        .ok (messages, candidate, prepared)) : Built worker candidate
  | next {suffix : List Json} {previous : Entry} {prefixCount : ℕ} {messages : List Json}
      {candidate : Entry} {prepared : PreparedVisionRequest ε} (cached : Built worker previous)
      (built : prepareVisionMessagesIncremental suffix (preparedVisionEncoder worker)
        (some previous) prefixCount = .ok (messages, candidate, prepared)) : Built worker candidate

/-- The images can be read, and there are none or there is a worker to encode them. -/
def Preparable (worker : Option (VisionWorker ε grid)) (messages : List Json) : Prop :=
  ∃ images, collectImages messages = .ok images ∧ (images = [] ∨ worker.isSome = true)

/-- The identity of a request's images. -/
def requestFingerprint (images : List VisionImage) : BitVec 64 :=
  if images = [] then 0 else nonzero (hashState fingerprintSeed images)

/-! ## A message without images -/

theorem setContent_contentBlocks {blocks : List Json} {message : Json}
    (h : contentBlocks? message = some blocks) : setContent blocks message = message := by
  cases message with
  | object members =>
    have hlookup : members.lookup "content" = some (.array blocks) := by
      simp only [contentBlocks?, Json.find?] at h
      split at h
      next heq => rw [heq, Option.some.inj h]
      next => cases h
    rw [setContent, Json.replaceMember_lookup hlookup]
  | _ => rfl

theorem map_renderedBlock {blocks : List Json} (h : blockImages blocks = .ok []) :
    blocks.map (renderedBlock grid) = blocks := by
  induction blocks with
  | nil => rfl
  | cons block blocks ih =>
    rw [blockImages] at h
    cases hb : blockImage block with
    | error e => simp [hb, Except.bind] at h
    | ok image =>
      cases hr : blockImages blocks with
      | error e => simp [hb, hr, Except.bind, Except.map] at h
      | ok others =>
        have hnil : image.toList ++ others = [] := by
          simpa [hb, hr, Except.bind, Except.map] using h
        obtain ⟨himage, rfl⟩ := List.append_eq_nil_iff.mp hnil
        cases image with
        | none => simp [renderedBlock, hb, ih hr]
        | some v => cases himage

/-- A message without images is left. -/
theorem rendered_of_no_images {message : Json} (h : messageImages message = .ok []) :
    rendered grid message = message := by
  rw [messageImages] at h
  rw [rendered]
  cases hc : contentBlocks? message with
  | none => rfl
  | some blocks =>
    rw [hc] at h
    simp only [map_renderedBlock h]
    exact setContent_contentBlocks hc

variable {messages : List Json}

theorem map_rendered_of_no_images (h : collectImages messages = .ok []) :
    messages.map (rendered grid) = messages := by
  induction messages with
  | nil => rfl
  | cons message messages ih =>
    obtain ⟨first, others, hfirst, hothers, hnil⟩ := collectImages_cons h
    obtain ⟨rfl, rfl⟩ := List.append_eq_nil_iff.mp hnil.symm
    rw [List.map_cons, rendered_of_no_images hfirst, ih hothers]

/-! ## The whole preparation -/

variable {worker : Option (VisionWorker ε grid)}

theorem prepareVisionMessages_ok {images : List VisionImage}
    (h : collectImages messages = .ok images) (hw : images = [] ∨ worker.isSome = true) :
    ∃ p, prepareVisionMessages messages (visionEncoder worker) =
        .ok (messages.map (rendered grid), p) ∧
      p.imageFingerprints = images.map (fun image => VisionImageSource.fingerprint ⟨image⟩) ∧
      p.fingerprint = requestFingerprint images := by
  cases images with
  | nil =>
    rw [map_rendered_of_no_images h]
    exact ⟨{ encoded := { features := default } }, by
      simp [prepareVisionMessages, h, bind, Except.bind], rfl, rfl⟩
  | cons image images =>
    obtain ⟨w, rfl⟩ := Option.isSome_iff_exists.mp (hw.resolve_left (by simp))
    have hrender := renderMessages_eq grid
      (.refused "vision worker image count does not match the request") h []
    rw [List.append_nil, ← w.encode_grids] at hrender
    refine ⟨{
      encoded := w.encode (image :: images)
      imageFingerprints := (image :: images).map fun image =>
        VisionImageSource.fingerprint ⟨image⟩
      fingerprint := requestFingerprint (image :: images) }, ?_, rfl, rfl⟩
    have hstate : (image :: images).foldl
        (fun state image => mix (mix state image.mediaType) image.base64Data) fingerprintSeed =
          hashState fingerprintSeed (image :: images) := by
      rw [hashState, List.foldl_map]
      rfl
    simp only [prepareVisionMessages, h, visionEncoder, Option.map_some, bind, Except.bind,
      Except.mapError, hrender, hstate]
    rfl

theorem prepareVisionMessages_error (h : ¬ Preparable worker messages) :
    ∃ e, prepareVisionMessages messages (visionEncoder worker) = .error e := by
  cases hc : collectImages messages with
  | error e => exact ⟨e, by simp [prepareVisionMessages, hc, bind, Except.bind]⟩
  | ok images =>
    cases images with
    | nil => exact absurd ⟨[], hc, .inl rfl⟩ h
    | cons image images =>
      cases worker with
      | none =>
        exact ⟨.refused "image input requires --vision-model DIR", by
          simp [prepareVisionMessages, hc, bind, Except.bind, visionEncoder]⟩
      | some w => exact absurd ⟨_, hc, .inr rfl⟩ h

/-! ## The incremental preparation -/

/-- The records that an entry may have. -/
def Canonical (grid : VisionImage → Grid) (records' : List PreparedMessage) : Prop :=
  ∃ raws images, collectImages raws = .ok images ∧ records' = records grid fingerprintSeed raws

/-- The images of the first messages can be read. -/
theorem collectImages_take {images : List VisionImage}
    (h : collectImages messages = .ok images) (n : ℕ) :
    ∃ before, collectImages (messages.take n) = .ok before := by
  rw [← List.take_append_drop n messages, collectImages_append] at h
  cases hb : collectImages (messages.take n) with
  | error e => simp [hb, Except.bind] at h
  | ok before => exact ⟨before, rfl⟩

theorem encodeSources_ok {sources : List VisionImageSource}
    (hw : sources = [] ∨ worker.isSome = true) :
    ∃ encoded, encodeSources (preparedVisionEncoder worker) sources = .ok encoded ∧
      encoded.grids = sources.map fun source => grid source.image := by
  cases sources with
  | nil => exact ⟨_, rfl, rfl⟩
  | cons source sources =>
    obtain ⟨w, rfl⟩ := Option.isSome_iff_exists.mp (hw.resolve_left (by simp))
    refine ⟨w.encodeSources (source :: sources), ?_, w.encodeSources_grids _⟩
    simp [encodeSources, preparedVisionEncoder, Except.mapError, Except.bind,
      w.encodeSources_grids]

theorem encodeSources_error {sources : List VisionImageSource}
    (hw : ¬ (sources = [] ∨ worker.isSome = true)) :
    ∃ e, encodeSources (preparedVisionEncoder worker) sources = .error e := by
  cases sources with
  | nil => exact absurd (.inl rfl) hw
  | cons source sources =>
    cases worker with
    | none => exact ⟨_, rfl⟩
    | some w => exact absurd (.inr rfl) hw

section Suffix

variable {previous : Option Entry} {n : ℕ} {raws suffix : List Json}
  {before images : List VisionImage}

/-- A prefix of an entry with canonical records, and a suffix whose images can be
read: the candidate's records are those of all the messages. -/
theorem prepareVisionMessagesIncremental_ok
    (hprev : (previous.map Entry.messages).getD [] = records grid fingerprintSeed raws)
    (hn : n ≤ raws.length) (hbefore : collectImages (raws.take n) = .ok before)
    (hsuffix : collectImages suffix = .ok images)
    (hw : before ++ images = [] ∨ worker.isSome = true) :
    ∃ q, prepareVisionMessagesIncremental suffix (preparedVisionEncoder worker) previous n =
        .ok ((raws.take n ++ suffix).map (rendered grid),
          { messages := records grid fingerprintSeed (raws.take n ++ suffix) }, q) ∧
      q.sources = (before ++ images).map VisionImageSource.mk ∧
      q.imageFingerprints =
        (before ++ images).map (fun image => VisionImageSource.fingerprint ⟨image⟩) ∧
      q.fingerprint = requestFingerprint (before ++ images) := by
  obtain ⟨fresh, hfresh, hfreshImages, hlast, hrender⟩ :=
    freshRecords_spec grid (hashState fingerprintSeed before) hsuffix
  have hsources : (before ++ images).map VisionImageSource.mk = [] ∨ worker.isSome = true := by
    simpa using hw
  obtain ⟨encoded, hencoded, hgrids⟩ := encodeSources_ok hsources
  have hcheck : checkGrids (before.map grid) encoded.grids = .ok (images.map grid) := by
    rw [hgrids, List.map_map, List.map_append]
    exact checkGrids_eq _ _
  refine ⟨{
    encoded
    imageFingerprints := ((before ++ images).map VisionImageSource.mk).map
      VisionImageSource.fingerprint
    fingerprint := requestFingerprint (before ++ images)
    sources := (before ++ images).map VisionImageSource.mk
    prefixMessagesReused := n
    prefixImagesReused := before.length }, ?_, rfl, List.map_map, rfl⟩
  have hempty : ((before ++ images).map VisionImageSource.mk = []) = (before ++ images = []) := by
    simp
  rw [prepareVisionMessagesIncremental]
  simp only [hprev, length_records, gt_iff_lt, Nat.not_lt.mpr hn, if_false, take_records,
    last_state_records hbefore, flatMap_images_records hbefore, flatMap_grids_records hbefore,
    bind, Except.bind, hfresh, hfreshImages, hlast, ← List.map_append, hencoded, hcheck, hrender,
    hempty, List.length_map, ← hashState_append, ← records_append hbefore, map_rendered_records]
  rfl

theorem prepareVisionMessagesIncremental_error
    (hprev : (previous.map Entry.messages).getD [] = records grid fingerprintSeed raws)
    (hn : n ≤ raws.length) (hbefore : collectImages (raws.take n) = .ok before)
    (h : ¬ Preparable worker (raws.take n ++ suffix)) :
    ∃ e, prepareVisionMessagesIncremental suffix (preparedVisionEncoder worker) previous n =
      .error e := by
  rw [prepareVisionMessagesIncremental]
  cases hsuffix : collectImages suffix with
  | error e =>
    refine ⟨e, ?_⟩
    simp only [hprev, length_records, gt_iff_lt, Nat.not_lt.mpr hn, if_false, bind, Except.bind,
      freshRecords_error hsuffix]
  | ok images =>
    obtain ⟨fresh, hfresh, hfreshImages, -, -⟩ :=
      freshRecords_spec grid (hashState fingerprintSeed before) hsuffix
    have hsources : ¬ ((before ++ images).map VisionImageSource.mk = [] ∨ worker.isSome = true) := by
      intro hw
      refine h ⟨before ++ images, ?_, by simpa using hw⟩
      rw [collectImages_append, hbefore, hsuffix]
      rfl
    obtain ⟨e, he⟩ := encodeSources_error hsources
    refine ⟨e, ?_⟩
    simp only [hprev, length_records, gt_iff_lt, Nat.not_lt.mpr hn, if_false, take_records,
      last_state_records hbefore, flatMap_images_records hbefore, bind, Except.bind, hfresh,
      hfreshImages, ← List.map_append, he]

/-- What is built from canonical records is canonical. -/
theorem canonical_candidate {candidate : Entry}
    {prepared : PreparedVisionRequest ε}
    (hprev : Canonical grid ((previous.map Entry.messages).getD []))
    (h : prepareVisionMessagesIncremental suffix (preparedVisionEncoder worker) previous n =
      .ok (messages, candidate, prepared)) : Canonical grid candidate.messages := by
  obtain ⟨raws, all, hraws, hrecords⟩ := hprev
  have hn : n ≤ raws.length := by
    by_contra hlt
    rw [prepareVisionMessagesIncremental] at h
    simp only [hrecords, length_records, gt_iff_lt, not_le.mp hlt, if_true, reduceCtorEq] at h
  obtain ⟨before, hbefore⟩ := collectImages_take hraws n
  by_cases hp : Preparable worker (raws.take n ++ suffix)
  · obtain ⟨together, htogether, hw⟩ := hp
    have happend := htogether
    rw [collectImages_append, hbefore] at happend
    cases hsuffix : collectImages suffix with
    | error e => simp [hsuffix, Except.bind, Except.map] at happend
    | ok images =>
      obtain rfl : before ++ images = together := by
        simpa [hsuffix, Except.bind, Except.map] using happend
      obtain ⟨q, hok, -⟩ :=
        prepareVisionMessagesIncremental_ok hrecords hn hbefore hsuffix hw
      rw [hok] at h
      cases h
      exact ⟨_, _, htogether, rfl⟩
  · obtain ⟨e, he⟩ := prepareVisionMessagesIncremental_error hrecords hn hbefore hp
    rw [he] at h
    cases h

end Suffix

/-- Every entry that requests build has canonical records. -/
theorem Built.canonical {entry : Entry} (h : Built worker entry) :
    Canonical grid entry.messages := by
  induction h with
  | first built => exact canonical_candidate ⟨[], [], rfl, rfl⟩ built
  | @next _ previous _ _ _ _ _ built ih =>
    have hprev : Canonical grid ((Option.map Entry.messages (some previous)).getD []) := ih
    exact canonical_candidate hprev built

/-! ## The cached prefix -/

theorem matched_le (messages : List Json) (records' : List PreparedMessage) :
    matched messages records' ≤ messages.length ∧ matched messages records' ≤ records'.length := by
  fun_induction matched messages records' with
  | case1 message messages record records' h ih => simp; omega
  | case2 => simp
  | case3 => simp

/-- The messages that matched are equal to the records' raw ones. -/
theorem matched_equal (messages : List Json) (records' : List PreparedMessage) :
    Json.agreeItems Number.equal (messages.take (matched messages records'))
      ((records'.map PreparedMessage.raw).take (matched messages records')) = true := by
  fun_induction matched messages records' with
  | case1 message messages record records' h ih =>
    simp only [List.take_succ_cons, List.map_cons, Json.agreeItems, Bool.and_eq_true]
    exact ⟨h, ih⟩
  | case2 => rfl
  | case3 => rfl

/-- The entry that is matched is a cached one, with the count of its messages that
match. -/
theorem matchPrefix_spec {cache : List Entry} {entry : Entry} {n : ℕ}
    (h : matchPrefix cache messages = (some entry, n)) :
    entry ∈ cache ∧ n = matched messages entry.messages := by
  have step : ∀ (rest : List Entry) (best : Option Entry) (count : ℕ),
      (∀ e, best = some e → e ∈ cache ∧ count = matched messages e.messages) →
      (∀ e ∈ rest, e ∈ cache) →
      ∀ e k, rest.foldl (fun found entry =>
        if entry.messages.length ≤ found.2 then (found.1, found.2)
        else if matched messages entry.messages > found.2 then
          (some entry, matched messages entry.messages)
        else (found.1, found.2)) (best, count) = (some e, k) →
      e ∈ cache ∧ k = matched messages e.messages := by
    intro rest
    induction rest with
    | nil =>
      intro best count hbest _ e k heq
      cases heq
      exact hbest e rfl
    | cons x rest ih =>
      intro best count hbest hmem e k heq
      rw [List.foldl_cons] at heq
      have hrest : ∀ e ∈ rest, e ∈ cache := fun e he => hmem e (List.mem_cons_of_mem _ he)
      dsimp only at heq
      split at heq
      next => exact ih best count hbest hrest e k heq
      next =>
        split at heq
        next =>
          refine ih _ _ ?_ hrest e k heq
          intro e' he'
          cases he'
          exact ⟨hmem x List.mem_cons_self, rfl⟩
        next => exact ih best count hbest hrest e k heq
  exact step cache none 0 (by simp) (fun e he => he) entry n h

/-! ## The two preparations -/

/-- What a successful incremental preparation owes the whole one: the text of the
rendered messages, the images and their fingerprints, and a candidate whose
records are those of all the messages. -/
structure SamePreparation (F : FloatText) (messages : List Json)
    (whole : List Json × PreparedVisionRequest ε)
    (incremental : List Json × Entry × PreparedVisionRequest ε) : Prop where
  rendered : (Json.array incremental.1).dump F = (Json.array whole.1).dump F
  images : collectImages messages =
    .ok (incremental.2.2.sources.map VisionImageSource.image)
  fingerprint : incremental.2.2.fingerprint = whole.2.fingerprint
  imageFingerprints : incremental.2.2.imageFingerprints = whole.2.imageFingerprints
  raw : (Json.array (incremental.2.1.messages.map PreparedMessage.raw)).dump F =
    (Json.array messages).dump F
  imageHashState : ∀ i record, incremental.2.1.messages[i]? = some record →
    ∃ images, collectImages (messages.take (i + 1)) = .ok images ∧
      record.imageHashState = hashState fingerprintSeed images

/-- Both preparations fail, or both succeed in the same way. -/
def Agree (F : FloatText) (messages : List Json) :
    Except Failure (List Json × PreparedVisionRequest ε) →
    Except Failure (List Json × Entry × PreparedVisionRequest ε) → Prop
  | .ok whole, .ok incremental => SamePreparation F messages whole incremental
  | .error _, .error _ => True
  | _, _ => False

omit [Inhabited ε] in
/-- The records of a prefix that is equal to the messages' own, and the other
messages: the two preparations agree on the text just when the prefix is written
alike. -/
theorem samePreparation_iff (F : FloatText) (grid : VisionImage → Grid) {prefix' mine rest : List Json}
    (hequal : Json.agreeItems Number.equal mine prefix' = true)
    {before images : List VisionImage} (hbefore : collectImages mine = .ok before)
    (hrest : collectImages rest = .ok images)
    {p q : PreparedVisionRequest ε}
    (hsources : q.sources = (before ++ images).map VisionImageSource.mk)
    (hfingerprint : q.fingerprint = p.fingerprint)
    (hfingerprints : q.imageFingerprints = p.imageFingerprints) :
    SamePreparation F (mine ++ rest) ((mine ++ rest).map (rendered grid), p)
        ((prefix' ++ rest).map (rendered grid),
          { messages := records grid fingerprintSeed (prefix' ++ rest) }, q) ↔
      Json.agreeItems Number.alike mine prefix' = true := by
  have hprefix' : collectImages prefix' = .ok before := by
    rw [← collectImages_of_agree hequal, hbefore]
  have hall : collectImages (mine ++ rest) = .ok (before ++ images) := by
    rw [collectImages_append, hbefore, hrest]
    rfl
  have hall' : collectImages (prefix' ++ rest) = .ok (before ++ images) := by
    rw [collectImages_append, hprefix', hrest]
    rfl
  have hlength : mine.length = prefix'.length := (Json.agreeItems_iff.mp hequal).length_eq
  constructor
  · intro hsame
    have hraw := hsame.raw
    rw [map_raw_records, Json.dump_array_eq_iff (by simp [hlength])] at hraw
    exact Json.alike_of_dumpItems_append rest hequal hraw.symm
  · intro halike
    have hrendered : Json.agreeItems Number.alike (mine.map (Vision.rendered grid))
        (prefix'.map (Vision.rendered grid)) = true := by
      rw [Json.agreeItems_iff] at halike ⊢
      rw [List.forall₂_map_left_iff, List.forall₂_map_right_iff]
      exact halike.imp fun _ _ hab => rendered_agree hab
    refine
      { rendered := ?_
        images := ?_
        fingerprint := hfingerprint
        imageFingerprints := hfingerprints
        raw := ?_
        imageHashState := ?_ }
    · rw [Json.dump_array_eq_iff (by simp [hlength]), List.map_append, List.map_append]
      exact (Json.dumpItems_append_of_alike F _ hrendered).symm
    · rw [hall, hsources, List.map_map]
      simp [Function.comp_def]
    · rw [map_raw_records, Json.dump_array_eq_iff (by simp [hlength])]
      exact (Json.dumpItems_append_of_alike F _ halike).symm
    · intro i record hrecord
      obtain ⟨upto, hupto, hstate⟩ := getElem?_records hall' hrecord
      refine ⟨upto, ?_, hstate⟩
      rw [← hupto]
      -- Up to a message the prefixes are equal too.
      have htake : Json.agreeItems Number.equal (mine.take (i + 1)) (prefix'.take (i + 1)) = true := by
        rw [Json.agreeItems_iff] at hequal ⊢
        exact List.forall₂_take (i + 1) hequal
      rw [List.take_append, List.take_append, hlength, collectImages_append, collectImages_append,
        collectImages_of_agree htake]

/-- Preparing the messages after a cached prefix, against preparing all of them:
for every chain of requests, every cache of the entries they build, and every
array of messages, the incremental preparation agrees with the whole one just
when the request is one that is refused, or the records that matched are written
as the messages are. -/
theorem incrementalPreparation (F : FloatText) (worker : Option (VisionWorker ε grid))
    (cache : List Entry) (hcache : ∀ entry ∈ cache, Built worker entry) (messages : List Json)
    (entry : Entry) (n : ℕ) (hmatch : matchPrefix cache messages = (some entry, n)) :
    Agree F messages (prepareVisionMessages messages (visionEncoder worker))
        (prepareVisionMessagesIncremental (messages.drop n) (preparedVisionEncoder worker)
          (some entry) n) ↔
      ¬ Preparable worker messages ∨
        List.Forall₂ (fun message record => message.alike record.raw = true)
          (messages.take n) (entry.messages.take n) := by
  obtain ⟨hmem, hn⟩ := matchPrefix_spec hmatch
  obtain ⟨raws, all, hraws, hrecords⟩ := (hcache entry hmem).canonical
  have hle := matched_le messages entry.messages
  have hequal := matched_equal messages entry.messages
  rw [← hn, hrecords, map_raw_records] at hequal
  rw [← hn, hrecords, length_records] at hle
  have hforall : List.Forall₂ (fun message record => message.alike record.raw = true)
      (messages.take n) (entry.messages.take n) ↔
        Json.agreeItems Number.alike (messages.take n) (raws.take n) = true := by
    have htake : raws.take n = (entry.messages.take n).map PreparedMessage.raw := by
      rw [hrecords, take_records, map_raw_records]
    rw [htake, Json.agreeItems_iff, List.forall₂_map_right_iff]
    rfl
  rw [hforall]
  obtain ⟨before, hbefore⟩ := collectImages_take hraws n
  have hmine : collectImages (messages.take n) = .ok before := by
    rw [collectImages_of_agree hequal, hbefore]
  have hprev : (Option.map Entry.messages (some entry)).getD [] =
      records grid fingerprintSeed raws := hrecords
  -- The same requests are refused.
  have hpreparable : Preparable worker (raws.take n ++ messages.drop n) ↔
      Preparable worker messages := by
    have hsame : collectImages (raws.take n ++ messages.drop n) = collectImages messages := by
      conv_rhs => rw [← List.take_append_drop n messages, collectImages_append, hmine]
      rw [collectImages_append, hbefore]
    rw [Preparable, Preparable, hsame]
  by_cases hp : Preparable worker messages
  · obtain ⟨together, htogether, hw⟩ := hp
    have happend := htogether
    rw [← List.take_append_drop n messages, collectImages_append, hmine] at happend
    cases hrest : collectImages (messages.drop n) with
    | error e => simp [hrest, Except.bind, Except.map] at happend
    | ok images =>
      obtain rfl : before ++ images = together := by
        simpa [hrest, Except.bind, Except.map] using happend
      obtain ⟨p, hwhole, hp1, hp2⟩ := prepareVisionMessages_ok htogether hw
      obtain ⟨q, hincremental, hq1, hq2, hq3⟩ :=
        prepareVisionMessagesIncremental_ok hprev hle.2 hbefore hrest hw
      rw [hwhole, hincremental, Agree]
      have hiff := samePreparation_iff F grid hequal hmine hrest hq1
        (hq3.trans hp2.symm) (hq2.trans hp1.symm)
      rw [List.take_append_drop] at hiff
      rw [hiff]
      have hprep : Preparable worker messages := ⟨_, htogether, hw⟩
      exact ⟨.inr, fun h => h.resolve_left (not_not_intro hprep)⟩
  · obtain ⟨e, hwhole⟩ := prepareVisionMessages_error hp
    obtain ⟨e', hincremental⟩ := prepareVisionMessagesIncremental_error hprev hle.2 hbefore
      (fun h => hp (hpreparable.mp h))
    rw [hwhole, hincremental, Agree]
    exact ⟨fun _ => .inl hp, fun _ => trivial⟩

end Worker

/-! ## A number that is written otherwise -/

/-- The text of `1.0`. -/
def oneText : FloatText where
  toChars _ := ['1', '.', '0']
  numeric_of_mem _ c h := by
    simp only [List.mem_cons, List.not_mem_nil, or_false] at h
    rcases h with rfl | rfl | rfl <;> rfl
  pointed _ := .inl (by decide)
  unsigned _ rest := by simp

/-- `1.0`. -/
def one : Double := ⟨0x3FF0000000000000⟩

theorem one_equalInteger : one.equalInteger 1 = true := by
  have hexponent : one.exponent = 1023 := by decide
  have hfraction : one.fraction = 0 := by decide
  have hsign : one.bits.msb = false := by decide
  have hvalue : one.value = 1 := by
    rw [Double.value, hexponent, hfraction, hsign]
    norm_num
  have hround : Double.roundInteger 1 = 1 := by
    have hlog : Nat.log2 1 = 0 := by decide
    simp [Double.roundInteger, hlog]
  rw [Double.equalInteger, hvalue, hround]
  decide

/-- A server without a vision worker. -/
def noWorker : Option (VisionWorker Unit fun _ => ⟨0, 0, 0, 0⟩) := none

/-- `{"content":"hi","n":1}`. -/
def cachedMessage : Json := .object [("content", .string "hi"), ("n", .integer 1)]

/-- `{"content":"hi","n":1.0}`. -/
def sentMessage : Json := .object [("content", .string "hi"), ("n", .float one)]

/-- The entry of a request with the one message. -/
def cachedEntry : Entry := { messages := [{ raw := cachedMessage, rendered := cachedMessage }] }

theorem built_cachedEntry : Built noWorker cachedEntry := by
  have built : prepareVisionMessagesIncremental [cachedMessage] (preparedVisionEncoder noWorker)
      none 0 = .ok ([cachedMessage], cachedEntry, { encoded := { features := () } }) := rfl
  exact .first built

theorem sentMessage_equal : sentMessage.equal cachedMessage = true := by
  simp [Json.equal, sentMessage, cachedMessage, Json.agree, Json.agreeMembers, Json.number?,
    Number.equal, one_equalInteger]

/-- The message is taken for the cached one, and its number is lost. -/
theorem incrementalPreparation_renumbered :
    Built noWorker cachedEntry ∧
      matchPrefix [cachedEntry] [sentMessage] = (some cachedEntry, 1) ∧
      ¬ Agree oneText [sentMessage] (prepareVisionMessages [sentMessage] (visionEncoder noWorker))
        (prepareVisionMessagesIncremental ([sentMessage].drop 1) (preparedVisionEncoder noWorker)
          (some cachedEntry) 1) := by
  refine ⟨built_cachedEntry, ?_, ?_⟩
  · simp [matchPrefix, matched, cachedEntry, sentMessage_equal]
  · have hwhole : prepareVisionMessages [sentMessage] (visionEncoder noWorker) =
        .ok ([sentMessage], { encoded := { features := () } }) := rfl
    have hincremental : prepareVisionMessagesIncremental ([sentMessage].drop 1)
        (preparedVisionEncoder noWorker) (some cachedEntry) 1 =
          .ok ([cachedMessage], cachedEntry,
            { encoded := { features := () }, prefixMessagesReused := 1 }) := rfl
    rw [hwhole, hincremental, Agree]
    intro hsame
    have hraw := hsame.raw
    simp [cachedEntry, Json.dump, sentMessage, cachedMessage, Json.dumpItems, Json.dumpMembers,
      Number.dump, dumpInteger, dumpFloat, one, oneText, Double.isFinite, Double.exponent] at hraw
    exact absurd hraw (by decide)

/-! ## A message with an image -/

/-- What every image is given. -/
def oneGrid : Grid := ⟨1, 2, 2, 1⟩

/-- A worker that gives every image the same grid. -/
def gridWorker : Option (VisionWorker Unit fun _ => oneGrid) := some
  { encode := fun images => ⟨images.map fun _ => oneGrid, ()⟩
    encodeSources := fun sources => ⟨sources.map fun _ => oneGrid, ()⟩
    encode_grids := fun _ => rfl
    encodeSources_grids := fun _ => rfl }

/-- `{"content":[{"image_url":"data:image/png;base64,QQ==","type":"image_url"}]}`. -/
def imageMessage : Json := .object [("content", .array [.object [("image_url", .string "data:image/png;base64,QQ=="),
  ("type", .string "image_url")]])]

theorem collectImages_imageMessage : collectImages [imageMessage] = .ok [⟨"image/png", "QQ=="⟩] := by
  decide +kernel

/-- The entry that a request with the image leaves. -/
def imageEntry : Entry := { messages := records (fun _ => oneGrid) fingerprintSeed [imageMessage] }

theorem built_imageEntry : Built gridWorker imageEntry := by
  have hnone : (Option.map Entry.messages none).getD [] = records (fun _ => oneGrid) fingerprintSeed [] := rfl
  have hworker : ([] ++ [⟨"image/png", "QQ=="⟩] : List VisionImage) = [] ∨ gridWorker.isSome = true := .inr rfl
  obtain ⟨q, hbuilt, -⟩ :=
    prepareVisionMessagesIncremental_ok hnone (Nat.zero_le _) rfl collectImages_imageMessage hworker
  exact .first hbuilt

/-- A message with an image is taken from the cache, and the one after it is prepared. -/
theorem incrementalPreparation_image :
    Built gridWorker imageEntry ∧
    matchPrefix [imageEntry] [imageMessage, sentMessage] = (some imageEntry, 1) ∧
    collectImages [imageMessage, sentMessage] = .ok [⟨"image/png", "QQ=="⟩] ∧
    Agree oneText [imageMessage, sentMessage] (prepareVisionMessages [imageMessage, sentMessage] (visionEncoder gridWorker))
      (prepareVisionMessagesIncremental [sentMessage] (preparedVisionEncoder gridWorker) (some imageEntry) 1) := by
  have hcache : ∀ entry ∈ [imageEntry], Built gridWorker entry := by
    intro entry hmem
    rw [List.mem_singleton.mp hmem]
    exact built_imageEntry
  have hequal : imageMessage.equal imageMessage = true := by
    simp [imageMessage, Json.equal, Json.agree, Json.agreeMembers, Json.agreeItems]
  have halike : imageMessage.alike imageMessage = true := by
    simp [imageMessage, Json.alike, Json.agree, Json.agreeMembers, Json.agreeItems]
  have hmatch : matchPrefix [imageEntry] [imageMessage, sentMessage] = (some imageEntry, 1) := by
    simp [matchPrefix, matched, imageEntry, records, record, hequal]
  have himages : collectImages [imageMessage, sentMessage] = .ok [⟨"image/png", "QQ=="⟩] := by
    have hsent : collectImages [sentMessage] = .ok [] := rfl
    have happend := collectImages_append [imageMessage] [sentMessage]
    rw [collectImages_imageMessage, hsent] at happend
    exact happend
  refine ⟨built_imageEntry, hmatch, himages, ?_⟩
  exact (incrementalPreparation oneText gridWorker [imageEntry] hcache _ imageEntry 1 hmatch).mpr
    (.inr (.cons halike .nil))

end Vision

end Qw3
