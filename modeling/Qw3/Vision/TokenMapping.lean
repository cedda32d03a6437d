import Qw3.Lib.Steps
import Qw3.Vision.Request

/-!
# Image tokens of a prompt

`finalize_vision_tokens` of `vision_request_preparation.hpp` and `VisionTokenMapping`
of `prepared_message_cache.hpp`: the image tokens of a prompt get virtual IDs, rows of
the image features and M-RoPE positions; what an earlier prompt begins with in the same
way is copied from its mapping.

## Main definitions

* `PreparedImages` — a request as it is prepared, with the identities of its images.
* `placeImages` — the images are found in the prompt, one after the other.
* `assignPositions` — the positions.
* `reuse` — how many tokens and images of an earlier prompt can be copied.
* `finalizeVisionTokens` — the whole function.

## Main results

* `exists_preparedImages`, `exists_preparedImages_incremental` — what the two functions
  prepare has the identities of its images, so that the mapping may rely on them.

## Design notes

Arrays that are written in place are functions of the index; a `uint32_t` holds the
length of a prompt.  The identity of an image is the fingerprint of its source.  A request
that is prepared as a whole keeps no sources, and then nothing is said of its identities;
one that is prepared by what is new of it keeps them.
-/

namespace Qw3.Vision

/-- `int32_t`, by its bits. -/
abbrev Token := BitVec 32

/-- The three coordinates of a position. -/
abbrev Mrope := BitVec 32 × BitVec 32 × BitVec 32

/-- The IDs of the marker texts; a tokenizer gives no ID to two texts. -/
structure Markers where
  imagePad : Token
  visionStart : Token
  visionEnd : Token
  distinct : imagePad.msb = false → visionStart.msb = false → visionEnd.msb = false →
    imagePad ≠ visionStart ∧ imagePad ≠ visionEnd ∧ visionStart ≠ visionEnd

namespace Markers

/-- An image begins at a position. -/
def startsAt (m : Markers) (tokens : ℕ → Token) (i : ℕ) : Bool :=
  tokens i = m.visionStart ∧ tokens (i + 1) = m.imagePad

end Markers

/-- `InputEmbeddingStorage`. -/
structure Storage where
  rows : BitVec 32
  dim : BitVec 32
  deriving DecidableEq, Repr

/-- The features of a `VisionEncoding`. -/
structure Features (β : Type) where
  embeddingDim : BitVec 32
  embeddings : List β
  storage : Option Storage

/-- A request as it is prepared: the identities of the images are the fingerprints of
the sources, where there are sources. -/
structure PreparedImages (β : Type) extends PreparedVisionRequest (Features β) where
  identities : sources.length = encoded.grids.length →
    imageFingerprints = sources.map VisionImageSource.fingerprint

section Preparing

variable {missing : Failure} {blocks out messages : List Json} {used left : List Grid}

/-- Blocks are rendered without a grid only where no block is an image. -/
theorem blockImages_of_renderBlocks (h : renderBlocks missing blocks [] = .ok (out, used, left)) :
    blockImages blocks = .ok [] ∧ left = [] := by
  induction blocks generalizing out used left with
  | nil =>
      cases h
      exact ⟨rfl, rfl⟩
  | cons block blocks ih =>
      unfold renderBlocks at h
      cases himage : isImageBlock block with
      | error e =>
          rw [himage] at h
          cases h
      | ok image =>
          rw [himage] at h
          cases image with
          | true => cases h
          | false =>
              cases hrest : renderBlocks missing blocks [] with
              | error e =>
                  dsimp only [Except.bind] at h
                  rw [hrest] at h
                  cases h
              | ok rendered =>
                  dsimp only [Except.bind] at h
                  rw [hrest] at h
                  obtain ⟨out', used', left'⟩ := rendered
                  obtain ⟨hblocks, hleft⟩ := ih hrest
                  cases h
                  refine ⟨?_, hleft⟩
                  unfold blockImages blockImage
                  rw [himage, hblocks]
                  rfl

/-- Messages are rendered without a grid only where they have no image. -/
theorem collectImages_of_renderMessages (h : renderMessages missing messages [] = .ok (out, left)) :
    collectImages messages = .ok [] := by
  induction messages generalizing out left with
  | nil => rfl
  | cons message messages ih =>
      unfold renderMessages renderMessage at h
      unfold collectImages messageImages
      cases hcontent : contentBlocks? message with
      | none =>
          rw [hcontent] at h
          dsimp only [Except.bind] at h
          cases hrest : renderMessages missing messages [] with
          | error e =>
              rw [hrest] at h
              cases h
          | ok rendered =>
              dsimp only
              rw [ih hrest]
              rfl
      | some blocks =>
          rw [hcontent] at h
          dsimp only at h
          cases hblocks : renderBlocks missing blocks [] with
          | error e =>
              rw [hblocks] at h
              cases h
          | ok rendered =>
              obtain ⟨out', used, left'⟩ := rendered
              obtain ⟨himages, rfl⟩ := blockImages_of_renderBlocks hblocks
              rw [hblocks] at h
              dsimp only [Except.map, Except.bind] at h
              cases hrest : renderMessages missing messages [] with
              | error e =>
                  rw [hrest] at h
                  cases h
              | ok rendered =>
                  dsimp only
                  rw [himages, ih hrest]
                  rfl

variable {ε : Type} [Inhabited ε]

/-- `prepare_vision_messages` keeps no sources; without grids it had no images. -/
theorem prepareVisionMessages_identities {p : PreparedVisionRequest ε}
    {encoder : Option (List VisionImage → Except String (VisionEncoding ε))}
    (h : prepareVisionMessages messages encoder = .ok (out, p))
    (hlength : p.sources.length = p.encoded.grids.length) :
    p.imageFingerprints = p.sources.map VisionImageSource.fingerprint := by
  unfold prepareVisionMessages at h
  obtain ⟨images, himages, h⟩ := Except.bind_eq_ok.mp h
  cases images with
  | nil =>
      cases h
      rfl
  | cons image images =>
      cases encoder with
      | none => cases h
      | some encode =>
          obtain ⟨encoded, -, h⟩ := Except.bind_eq_ok.mp h
          obtain ⟨⟨rendered, left⟩, hrender, h⟩ := Except.bind_eq_ok.mp h
          cases left with
          | cons grid left => cases h
          | nil =>
              cases h
              -- no sources, so no grids, and the images could not have been rendered
              have hgrids : encoded.grids = [] := List.length_eq_zero_iff.mp hlength.symm
              rw [hgrids] at hrender
              have hnone := collectImages_of_renderMessages hrender
              rw [himages] at hnone
              cases hnone

/-- `prepare_vision_messages_incremental` takes the fingerprints of the sources. -/
theorem prepareVisionMessagesIncremental_identities {p : PreparedVisionRequest ε} {entry : Entry}
    {encoder : Option (List VisionImageSource → Except String (VisionEncoding ε))}
    {previous : Option Entry} {n : ℕ} {suffix : List Json}
    (h : prepareVisionMessagesIncremental suffix encoder previous n = .ok (out, entry, p)) :
    p.imageFingerprints = p.sources.map VisionImageSource.fingerprint := by
  unfold prepareVisionMessagesIncremental at h
  dsimp only at h
  split_ifs at h
  obtain ⟨fresh, -, h⟩ := Except.bind_eq_ok.mp h
  obtain ⟨encoded, -, h⟩ := Except.bind_eq_ok.mp h
  obtain ⟨grids, -, h⟩ := Except.bind_eq_ok.mp h
  obtain ⟨rendered, -, h⟩ := Except.bind_eq_ok.mp h
  cases h
  rfl

variable {β : Type} {p : PreparedVisionRequest (Features β)}

/-- **What is prepared has the identities of its images**, by the whole request or by what is new
of it. -/
theorem exists_preparedImages [Inhabited (Features β)]
    {encoder : Option (List VisionImage → Except String (VisionEncoding (Features β)))}
    (h : prepareVisionMessages messages encoder = .ok (out, p)) :
    ∃ prepared : PreparedImages β, prepared.toPreparedVisionRequest = p :=
  ⟨⟨p, prepareVisionMessages_identities h⟩, rfl⟩

theorem exists_preparedImages_incremental [Inhabited (Features β)] {entry : Entry} {previous : Option Entry} {n : ℕ}
    {encoder : Option (List VisionImageSource → Except String (VisionEncoding (Features β)))} {suffix : List Json}
    (h : prepareVisionMessagesIncremental suffix encoder previous n = .ok (out, entry, p)) :
    ∃ prepared : PreparedImages β, prepared.toPreparedVisionRequest = p :=
  ⟨⟨p, fun _ => prepareVisionMessagesIncremental_identities h⟩, rfl⟩

end Preparing

/-- The features of one row. -/
inductive RowData (β : Type)
  | stored (storage : Storage) (row : BitVec 32)
  | values (embedding : List β)
  deriving DecidableEq

/-- `InputEmbeddingOverride`. -/
structure Override (β : Type) where
  tokenId : BitVec 32
  sourceTokenId : BitVec 32
  position : Mrope := (0, 0, 0)
  cacheIdentity : BitVec 64
  data : RowData β
  deriving DecidableEq

/-- `multimodal_row_cache_identity`. -/
def multimodalRowCacheIdentity (imageIdentity : BitVec 64) (row : BitVec 32) : BitVec 64 :=
  let h := if imageIdentity ≠ 0 then imageIdentity else 1469598103934665603
  nonzero ((List.range 4).foldl
    (fun h byte => (h ^^^ ((row >>> (8 * byte)) &&& 0xff).setWidth 64) * 1099511628211) h)

/-- `VisionTokenMapping`. -/
structure VisionTokenMapping where
  rawTokens : List Token
  mappedTokens : List Token
  positions : List Mrope
  rowIdentities : List (BitVec 64)
  spans : List (ℕ × ℕ)
  images : List VisionImageSource
  grids : List Grid
  imagePad : Token
  visionStart : Token
  visionEnd : Token
  dim : BitVec 32
  deriving DecidableEq

/-! ## Placing the images -/

/-- A `while` loop that moves on until a condition holds. -/
def scanUntil (stop : ℕ → Bool) : ℕ → ℕ → ℕ
  | 0, i => i
  | fuel + 1, i => if stop i then i else scanUntil stop fuel (i + 1)

/-- What the loop over the images works on. -/
@[ext]
structure Placing (β : Type) where
  tokens : ℕ → Token
  modality : ℕ → Bool
  overrides : List (Override β)
  spans : List (ℕ × ℕ)
  embeddingRow : ℕ
  search : ℕ

section Placing

variable {β : Type} (m : Markers) (features : Features β)

/-- The features of a row. -/
def rowData (row : ℕ) : RowData β :=
  match features.storage with
  | some storage => .stored storage (BitVec.ofNat 32 row)
  | none => .values ((features.embeddings.drop (row * features.embeddingDim.toNat)).take
      features.embeddingDim.toNat)

/-- `virtual_id`. -/
def virtualId (row : ℕ) : Token := 0x80000000 ||| BitVec.ofNat 32 (row + 1)

/-- The override of row `j` of an image. -/
def freshOverride (fingerprint : BitVec 64) (row j : ℕ) : Override β where
  tokenId := virtualId row
  sourceTokenId := m.imagePad
  cacheIdentity := multimodalRowCacheIdentity fingerprint (BitVec.ofNat 32 j)
  data := rowData features row

/-- How many rows have a virtual ID. -/
def rowLimit : ℕ := 0x7fffffff

/-- The loop over the tokens of an image, at row `j` of it. -/
def placeRows (fingerprint : BitVec 64) (begin' : ℕ) :
    ℕ → ℕ → Placing β → Except String (Placing β)
  | 0, _, st => .ok st
  | count + 1, j, st =>
      if st.embeddingRow ≥ rowLimit then .error "too many visual embedding rows"
      else placeRows fingerprint begin' count (j + 1) {
        st with
        tokens := Function.update st.tokens (begin' + j) (virtualId st.embeddingRow)
        modality := Function.update st.modality (begin' + j) true
        overrides := st.overrides ++ [freshOverride m features fingerprint st.embeddingRow j]
        embeddingRow := st.embeddingRow + 1 }

/-- One turn of the loop over the images, in a prompt of `n` tokens. -/
def placeImage (n : ℕ) (grid : Grid) (fingerprint : BitVec 64) (st : Placing β) :
    Except String (Placing β) :=
  let spanBegin := scanUntil
    (fun i => ¬ (i + 1 < n ∧ ¬ m.startsAt st.tokens i)) n st.search
  if spanBegin + 1 ≥ n then .error "rendered prompt has fewer vision spans than encoded images"
  else
    let begin' := spanBegin + 1
    let stop := scanUntil (fun i => ¬ (i < n ∧ st.tokens i = m.imagePad)) n begin'
    if stop - begin' ≠ grid.rows.toNat then
      .error "rendered image token run does not match the processed image grid"
    else if stop ≥ n ∨ st.tokens stop ≠ m.visionEnd then
      .error "rendered image token run is missing vision_end"
    else
      placeRows m features fingerprint begin' (stop - begin') 0
        { st with spans := st.spans ++ [(spanBegin, stop + 1)], search := stop }

/-- The loop over the images. -/
def placeImages (n : ℕ) : List (Grid × BitVec 64) → Placing β → Except String (Placing β)
  | [], st => .ok st
  | (grid, fingerprint) :: rest, st =>
      match placeImage m features n grid fingerprint st with
      | .error e => .error e
      | .ok st => placeImages n rest st

end Placing

/-! ## Positions -/

/-- `mrope`, of row `row` of an image. -/
def mropeAt (grid : Grid) (current : BitVec 32) (row : ℕ) : Mrope :=
  let llmH := grid.height / 2
  let llmW := grid.width / 2
  let plane := llmH * llmW
  let r := BitVec.ofNat 32 row
  let t := if plane > 0 then r / plane else 0
  let rem := if plane > 0 then r % plane else 0
  let h := if llmW > 0 then rem / llmW else 0
  let w := if llmW > 0 then rem % llmW else 0
  (current + t, current + h, current + w)

/-- What an image advances the position by. -/
def advanceOf (grid : Grid) : BitVec 32 :=
  BitVec.ofNat 32 (max (max grid.temporal.toNat (grid.height / 2).toNat) (grid.width / 2).toNat)

/-- What the loop over the positions works on. -/
@[ext]
structure Positioning (β : Type) where
  pos : ℕ
  current : BitVec 32
  positions : ℕ → Mrope
  overrides : List (Override β)

section Positions

variable {β : Type}

/-- The row that a virtual ID stands for. -/
def rowOf (token : Token) : ℕ := (token &&& 0x7fffffff).toNat - 1

/-- The loop over the rows of an image. -/
def positionRows (tokens : ℕ → Token) (grid : Grid) :
    ℕ → ℕ → Positioning β → Positioning β
  | 0, _, st => st
  | count + 1, row, st =>
      let mrope := mropeAt grid st.current row
      positionRows tokens grid count (row + 1) {
        st with
        pos := st.pos + 1
        positions := Function.update st.positions st.pos mrope
        overrides := st.overrides.modify (rowOf (tokens st.pos)) fun o => { o with position := mrope } }

/-- The loop over the positions, for the grids that are left.  Each turn moves on, so
that as many turns as there are tokens are enough. -/
def assignPositions (tokens : ℕ → Token) (modality : ℕ → Bool) (n : ℕ) :
    ℕ → List Grid → Positioning β → Except String (Positioning β)
  | 0, _, st => .ok st
  | fuel + 1, grids, st =>
      if st.pos ≥ n then .ok st
      else if modality st.pos = false then
        assignPositions tokens modality n fuel grids {
          st with
          pos := st.pos + 1
          current := st.current + 1
          positions := Function.update st.positions st.pos (st.current, st.current, st.current) }
      else
        match grids with
        | [] => .error "image modality run count exceeds image grids"
        | grid :: grids =>
            if grid.height % 2 ≠ 0 ∨ grid.width % 2 ≠ 0 then
              .error "Qwen vision grid is not divisible by spatial merge size 2"
            else
              let st := positionRows tokens grid grid.rows.toNat 0 st
              assignPositions tokens modality n fuel grids
                { st with current := st.current + advanceOf grid }

end Positions

/-! ## What can be copied -/

/-- The length of the common prefix. -/
def commonPrefix : List Token → List Token → ℕ
  | a :: as, b :: bs => if a = b then commonPrefix as bs + 1 else 0
  | _, _ => 0

/-- Sources with the same content. -/
def sameSource (a b : VisionImageSource) : Bool :=
  a.fingerprint = b.fingerprint ∧ a.image.mediaType = b.image.mediaType ∧
    a.image.base64Data = b.image.base64Data

/-- `images_equal`: how many images are the same. -/
def imagesEqual : List (VisionImageSource × Grid) → List (VisionImageSource × Grid) → ℕ
  | a :: as, b :: bs =>
      if sameVisionGrid a.2 b.2 ∧ sameSource a.1 b.1 then imagesEqual as bs + 1 else 0
  | _, _ => 0

/-- The loop over the spans: `stable`, and how many spans lie before it. -/
def wholeSpans (stable : ℕ) : List (ℕ × ℕ) → ℕ × ℕ
  | [] => (stable, 0)
  | span :: rest =>
      -- a rewrite that intersects an image restarts at its `vision_start`
      if stable > span.1 ∧ stable < span.2 then (span.1, 0)
      else if span.2 > stable then (stable, 0)
      else
        let found := wholeSpans stable rest
        (found.1, found.2 + 1)

section Reuse

variable {β : Type} (m : Markers)

/-- `stable` and `prefix_grids`. -/
def reuse (tokens : List Token) (prepared : PreparedImages β) :
    Option VisionTokenMapping → ℕ × ℕ
  | none => (0, 0)
  | some previous =>
      if previous.imagePad = m.imagePad ∧ previous.visionStart = m.visionStart ∧
          previous.visionEnd = m.visionEnd ∧
          previous.dim = prepared.encoded.features.embeddingDim ∧
          previous.images.length = previous.spans.length ∧
          prepared.sources.length = prepared.encoded.grids.length then
        let stable := commonPrefix tokens previous.rawTokens
        let equal := imagesEqual (prepared.sources.zip prepared.encoded.grids)
          (previous.images.zip previous.grids)
        let stable :=
          if equal < previous.spans.length then min stable (previous.spans.getD equal (0, 0)).1
          else stable
        wholeSpans stable previous.spans
      else (0, 0)

/-- The overrides of the spans that are copied, from row `row` on. -/
def copiedOverrides (features : Features β) (previous : VisionTokenMapping) :
    ℕ → List (ℕ × ℕ) → List (Override β)
  | _, [] => []
  | row, span :: rest =>
      let count := span.2 - 1 - (span.1 + 1)
      ((List.range count).map fun j => {
        tokenId := previous.mappedTokens.getD (span.1 + 1 + j) 0
        sourceTokenId := m.imagePad
        position := previous.positions.getD (span.1 + 1 + j) (0, 0, 0)
        cacheIdentity := previous.rowIdentities.getD (row + j) 0
        data := rowData features (row + j) }) ++
        copiedOverrides features previous (row + count) rest

/-- What the loop over the images begins with. -/
def copied (tokens : List Token) (prepared : PreparedImages β)
    (previous : Option VisionTokenMapping) : Placing β × Positioning β :=
  let (stable, prefixGrids) := reuse m tokens prepared previous
  match previous with
  | some previous =>
      if stable = 0 then
        (⟨fun i => tokens.getD i 0, fun _ => false, [], [], 0, 0⟩, ⟨0, 0, fun _ => (0, 0, 0), []⟩)
      else
        let spans := previous.spans.take prefixGrids
        let overrides := copiedOverrides m prepared.encoded.features previous 0 spans
        (⟨fun i => if i < stable then previous.mappedTokens.getD i 0 else tokens.getD i 0,
            fun _ => false, overrides, spans, overrides.length, stable⟩,
          ⟨stable, (previous.positions.getD (stable - 1) (0, 0, 0)).1 + 1,
            fun i => if i < stable then previous.positions.getD i (0, 0, 0) else (0, 0, 0), []⟩)
  | none => (⟨fun i => tokens.getD i 0, fun _ => false, [], [], 0, 0⟩, ⟨0, 0, fun _ => (0, 0, 0), []⟩)

end Reuse

/-! ## The whole function -/

/-- What `finalize_vision_tokens` leaves when it succeeds. -/
structure Finalized (β : Type) where
  tokens : List Token
  positions : List Mrope
  tokenSpans : List (ℕ × ℕ)
  overrides : List (Override β)
  fingerprint : BitVec 64
  mappingTokensReused : ℕ
  saved : VisionTokenMapping
  deriving DecidableEq

section Finalize

variable {β : Type} (m : Markers)

/-- The checks before the prompt is read. -/
def checkRequest (prepared : PreparedImages β) : Except String Unit :=
  if m.imagePad.msb ∨ m.visionStart.msb ∨ m.visionEnd.msb then
    .error "model tokenizer is missing Qwen vision special tokens"
  else if prepared.encoded.features.embeddingDim = 0 then
    .error "vision worker returned an invalid embedding width"
  else if prepared.imageFingerprints.length ≠ prepared.encoded.grids.length then
    .error "vision source identity count does not match encoded images"
  else .ok ()

/-- The checks on the number of rows. -/
def checkRows (features : Features β) (embeddingRow : ℕ) : Except String Unit :=
  match features.storage with
  | some storage =>
      if storage.rows.toNat ≠ embeddingRow ∨ storage.dim ≠ features.embeddingDim then
        .error "device visual embeddings do not match prompt mapping"
      else .ok ()
  | none =>
      if embeddingRow * features.embeddingDim.toNat ≠ features.embeddings.length then
        .error "unused visual embeddings remain after prompt mapping"
      else .ok ()

/-- `finalize_vision_tokens`; nothing is done for a request without images. -/
def finalizeVisionTokens (tokens : List Token) (prepared : PreparedImages β)
    (previous : Option VisionTokenMapping) : Except String (Option (Finalized β)) := do
  if prepared.encoded.grids = [] then return none
  let n := tokens.length
  checkRequest m prepared
  let (stable, prefixGrids) := reuse m tokens prepared previous
  let (placing, positioning) := copied m tokens prepared previous
  let placed ← placeImages m prepared.encoded.features n
    ((prepared.encoded.grids.zip prepared.imageFingerprints).drop prefixGrids) placing
  checkRows prepared.encoded.features placed.embeddingRow
  let positioned ← assignPositions placed.tokens placed.modality n n
    (prepared.encoded.grids.drop prefixGrids) { positioning with overrides := placed.overrides }
  let mapped := (List.range n).map placed.tokens
  let positions := (List.range n).map positioned.positions
  return some {
    tokens := mapped
    positions
    tokenSpans := placed.spans
    overrides := positioned.overrides
    fingerprint := prepared.fingerprint
    mappingTokensReused := stable
    saved := {
      rawTokens := tokens
      mappedTokens := mapped
      positions
      rowIdentities := positioned.overrides.map Override.cacheIdentity
      spans := placed.spans
      images := prepared.sources
      grids := prepared.encoded.grids
      imagePad := m.imagePad
      visionStart := m.visionStart
      visionEnd := m.visionEnd
      dim := prepared.encoded.features.embeddingDim } }

end Finalize

end Qw3.Vision
