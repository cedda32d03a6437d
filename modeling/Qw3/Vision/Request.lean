import Qw3.Json.Equal

/-!
# Preparation of messages with images

`vision_request_preparation.hpp` and the records of `prepared_message_cache.hpp`.

* `openaiImageBlock`, `parseDataImageUrl` — an image block of a message.
* `VisionImageSource` — an image with its fingerprint.
* `prepareVisionMessages` — a whole request.
* `prepareVisionMessagesIncremental` — the messages after a cached prefix.
* `matchPrefix` — the cached entry that the longest prefix is in.

A function that returns `false` leaves with `Failure.refused`, and one that
throws with `Failure.threw`.
-/

namespace Qw3.Vision

/-- How a preparation fails. -/
inductive Failure where
  | refused (error : String)
  | threw (what : String)
  deriving DecidableEq, Repr

/-- `VisionImage`. -/
structure VisionImage where
  mediaType : String
  base64Data : String
  deriving DecidableEq, Repr

/-! ## Fingerprints -/

/-- `VisionImageSource::fingerprint_seed`. -/
def fingerprintSeed : BitVec 64 := 1469598103934665603

/-- The bytes of one part of an image, and the byte that ends it. -/
def mix (fingerprint : BitVec 64) (value : String) : BitVec 64 :=
  let mixByte := fun (state : BitVec 64) (byte : UInt8) =>
    (state ^^^ byte.toBitVec.setWidth 64) * 1099511628211
  mixByte (value.toUTF8.toList.foldl mixByte fingerprint) 0xff

/-- An identity is not zero. -/
def nonzero (fingerprint : BitVec 64) : BitVec 64 := if fingerprint ≠ 0 then fingerprint else 1

/-- `VisionImageSource`. -/
structure VisionImageSource where
  image : VisionImage
  deriving DecidableEq, Repr

namespace VisionImageSource

/-- `append_fingerprint`. -/
def appendFingerprint (state : BitVec 64) (source : VisionImageSource) : BitVec 64 :=
  [source.image.mediaType, source.image.base64Data].foldl mix state

def fingerprint (source : VisionImageSource) : BitVec 64 :=
  nonzero (source.appendFingerprint fingerprintSeed)

end VisionImageSource

/-! ## Encodings -/

/-- `VisionEncoding::Grid`. -/
structure Grid where
  temporal : BitVec 32
  height : BitVec 32
  width : BitVec 32
  rows : BitVec 32
  deriving DecidableEq, Repr

/-- `VisionEncoding`: the grids, and the features of the images. -/
structure VisionEncoding (ε : Type) where
  grids : List Grid := []
  features : ε

/-- `same_vision_grid`. -/
def sameVisionGrid (a b : Grid) : Bool :=
  a.temporal == b.temporal && a.height == b.height && a.width == b.width && a.rows == b.rows

/-- `PreparedVisionRequest`. -/
structure PreparedVisionRequest (ε : Type) where
  encoded : VisionEncoding ε
  imageFingerprints : List (BitVec 64) := []
  fingerprint : BitVec 64 := 0
  sources : List VisionImageSource := []
  prefixMessagesReused : ℕ := 0
  prefixImagesReused : ℕ := 0

/-! ## Image blocks -/

/-- Where a text first occurs. -/
def findText (text : List Char) : List Char → Option ℕ
  | [] => if text = [] then some 0 else none
  | c :: rest => if text.isPrefixOf (c :: rest) then some 0 else (findText text rest).map (· + 1)

/-- `parse_data_image_url`. -/
def parseDataImageUrl (url : String) : Except Failure VisionImage :=
  let chars := url.toList
  if ¬ "data:".toList.isPrefixOf chars then
    .error (.refused "CPU vision V1 accepts base64 data: image URLs only")
  else
    match findText [','] chars, findText ";base64".toList chars with
    | some comma, some base64 =>
        if base64 > comma then .error (.refused "image URL must be a base64 data URI")
        else
          let mediaType := (chars.drop 5).take (base64 - 5)
          let data := chars.drop (comma + 1)
          if ¬ "image/".toList.isPrefixOf mediaType ∨ data = [] then
            .error (.refused "invalid base64 image data URI")
          else .ok ⟨String.ofList mediaType, String.ofList data⟩
    | _, _ => .error (.refused "image URL must be a base64 data URI")

/-- `block.value("type", "")`. -/
def blockType (block : Json) : Except Failure String :=
  (block.value Json.getString "type" "").mapError .threw

/-- `block.is_object() && block.value("type", "") == "image_url"`. -/
def isImageBlock (block : Json) : Except Failure Bool :=
  if block.isObject then (blockType block).map (· == "image_url") else .ok false

/-- `openai_image_block` of an image block. -/
def openaiImageBlock (block : Json) : Except Failure VisionImage :=
  match block.find? "image_url" with
  | none => .error (.refused "image_url block requires image_url")
  | some (.string url) => parseDataImageUrl url
  | some value =>
      match value.findString? "url" with
      | some url => parseDataImageUrl url
      | none => .error (.refused "image_url must be a string or an object with string url")

/-- The image of a block, if it is an image block. -/
def blockImage (block : Json) : Except Failure (Option VisionImage) :=
  (isImageBlock block).bind fun image =>
    if image then (openaiImageBlock block).map some else .ok none

/-- The blocks of a message whose content is an array. -/
def contentBlocks? (message : Json) : Option (List Json) :=
  match message.find? "content" with
  | some (.array blocks) => some blocks
  | _ => none

/-- The images of the blocks, in order. -/
def blockImages : List Json → Except Failure (List VisionImage)
  | [] => .ok []
  | block :: blocks =>
      (blockImage block).bind fun image =>
        (blockImages blocks).map fun images => image.toList ++ images

/-- The images of a message. -/
def messageImages (message : Json) : Except Failure (List VisionImage) :=
  match contentBlocks? message with
  | some blocks => blockImages blocks
  | none => .ok []

/-- The images of the messages, in order. -/
def collectImages : List Json → Except Failure (List VisionImage)
  | [] => .ok []
  | message :: messages =>
      (messageImages message).bind fun images =>
        (collectImages messages).map fun rest => images ++ rest

/-! ## Placeholders -/

/-- The text of an image with this grid. -/
def placeholder (grid : Grid) : String :=
  "<|vision_start|>" ++ String.join (List.replicate grid.rows.toNat "<|image_pad|>") ++
    "<|vision_end|>"

/-- The block that stands for an image with this grid. -/
def textBlock (grid : Grid) : Json :=
  .ofMembers [("type", .string "text"), ("text", .string (placeholder grid))]

/-- The blocks with a text for each image, the grids that were used and those
that are left. -/
def renderBlocks (missing : Failure) :
    List Json → List Grid → Except Failure (List Json × List Grid × List Grid)
  | [], grids => .ok ([], [], grids)
  | block :: blocks, grids =>
      (isImageBlock block).bind fun image =>
        if image then
          match grids with
          | [] => .error missing
          | grid :: grids =>
              (renderBlocks missing blocks grids).map fun (out, used, left) =>
                (textBlock grid :: out, grid :: used, left)
        else
          (renderBlocks missing blocks grids).map fun (out, used, left) =>
            (block :: out, used, left)

/-- `message["content"] = blocks`. -/
def setContent (blocks : List Json) : Json → Json
  | .object members => .object (Json.replaceMember "content" (.array blocks) members)
  | message => message

/-- A message with a text for each image. -/
def renderMessage (missing : Failure) (message : Json) (grids : List Grid) :
    Except Failure (Json × List Grid × List Grid) :=
  match contentBlocks? message with
  | some blocks =>
      (renderBlocks missing blocks grids).map fun (out, used, left) =>
        (setContent out message, used, left)
  | none => .ok (message, [], grids)

/-- The messages with a text for each image, and the grids that are left. -/
def renderMessages (missing : Failure) :
    List Json → List Grid → Except Failure (List Json × List Grid)
  | [], grids => .ok ([], grids)
  | message :: messages, grids =>
      (renderMessage missing message grids).bind fun (out, _, left) =>
        (renderMessages missing messages left).map fun (rest, left) => (out :: rest, left)

/-! ## A whole request -/

section Whole

variable {ε : Type} [Inhabited ε]

/-- `prepare_vision_messages`: the messages, and what they were prepared with. -/
def prepareVisionMessages (messages : List Json)
    (encoder : Option (List VisionImage → Except String (VisionEncoding ε))) :
    Except Failure (List Json × PreparedVisionRequest ε) := do
  let images ← collectImages messages
  match images, encoder with
  | [], _ => .ok (messages, { encoded := { features := default } })
  | _ :: _, none => .error (.refused "image input requires --vision-model DIR")
  | _ :: _, some encode =>
      let encoded ← (encode images).mapError .refused
      let fingerprint := images.foldl
        (fun state image => mix (mix state image.mediaType) image.base64Data) fingerprintSeed
      let imageFingerprints := images.map fun image =>
        nonzero (mix (mix fingerprintSeed image.mediaType) image.base64Data)
      let (rendered, left) ← renderMessages
        (.refused "vision worker image count does not match the request") messages encoded.grids
      match left with
      | [] => .ok (rendered,
          { encoded, imageFingerprints, fingerprint := nonzero fingerprint })
      | _ :: _ => .error (.refused "vision request mutation lost an image")

end Whole

/-! ## Records -/

/-- `PreparedMessage`. -/
structure PreparedMessage where
  raw : Json
  rendered : Json
  images : List VisionImageSource := []
  grids : List Grid := []
  imageHashState : BitVec 64 := fingerprintSeed

/-- `PreparedMessageCache::Entry`. -/
structure Entry where
  messages : List PreparedMessage := []

/-- How many messages are those of the records. -/
def matched : List Json → List PreparedMessage → ℕ
  | message :: messages, record :: records =>
      if message.equal record.raw then matched messages records + 1 else 0
  | _, _ => 0

/-- `match_prefix`, over the entries from the latest: the first with the most
messages matched, and their count. -/
def matchPrefix (cache : List Entry) (messages : List Json) : Option Entry × ℕ :=
  cache.foldl (fun (best, count) entry =>
    if entry.messages.length ≤ count then (best, count)
    else if matched messages entry.messages > count then
      (some entry, matched messages entry.messages)
    else (best, count)) (none, 0)

/-! ## After a cached prefix -/

/-- The records of the suffix, before they are rendered. -/
def freshRecords (state : BitVec 64) : List Json → Except Failure (List PreparedMessage)
  | [] => .ok []
  | message :: messages =>
      (messageImages message).bind fun images =>
        let sources := images.map VisionImageSource.mk
        let state := sources.foldl VisionImageSource.appendFingerprint state
        (freshRecords state messages).map fun records =>
          { raw := message, rendered := message, images := sources, imageHashState := state } ::
            records

/-- The cached grids are the encoding's first ones; the grids after them. -/
def checkGrids : List Grid → List Grid → Except Failure (List Grid)
  | [], grids => .ok grids
  | _ :: _, [] => .error (.refused "cached image grid changed within the same server")
  | cached :: rest, grid :: grids =>
      if sameVisionGrid cached grid then checkGrids rest grids
      else .error (.refused "cached image grid changed within the same server")

/-- `grids.at(index)` past the end. -/
def outOfRange : Failure := .threw "vector::_M_range_check"

/-- The records of the suffix, rendered. -/
def renderRecords : List PreparedMessage → List Grid → Except Failure (List PreparedMessage)
  | [], _ => .ok []
  | record :: records, grids =>
      (renderMessage outOfRange record.rendered grids).bind fun (rendered, used, left) =>
        (renderRecords records left).map fun rest =>
          { record with rendered, grids := record.grids ++ used } :: rest

section Incremental

variable {ε : Type} [Inhabited ε]

/-- The encoding of the sources. -/
def encodeSources (encoder : Option (List VisionImageSource → Except String (VisionEncoding ε)))
    (sources : List VisionImageSource) : Except Failure (VisionEncoding ε) :=
  match sources, encoder with
  | [], _ => .ok { features := default }
  | _ :: _, none => .error (.refused "image input requires --vision-model DIR")
  | _ :: _, some encode =>
      ((encode sources).mapError .refused).bind fun encoded =>
        if encoded.grids.length ≠ sources.length then
          .error (.refused "vision worker image count does not match prepared sources")
        else .ok encoded

/-- `prepare_vision_messages_incremental`: the messages, the candidate, and what
they were prepared with. -/
def prepareVisionMessagesIncremental (suffix : List Json)
    (encoder : Option (List VisionImageSource → Except String (VisionEncoding ε)))
    (previous : Option Entry) (prefixCount : ℕ) :
    Except Failure (List Json × Entry × PreparedVisionRequest ε) := do
  let records := (previous.map Entry.messages).getD []
  if prefixCount > records.length then .error (.refused "invalid prepared message prefix")
  else
    let reused := records.take prefixCount
    let prefixSources := reused.flatMap PreparedMessage.images
    let state := (reused.getLast?.map PreparedMessage.imageHashState).getD fingerprintSeed
    let fresh ← freshRecords state suffix
    let sources := prefixSources ++ fresh.flatMap PreparedMessage.images
    let state := (fresh.getLast?.map PreparedMessage.imageHashState).getD state
    let encoded ← encodeSources encoder sources
    let grids ← checkGrids (reused.flatMap PreparedMessage.grids) encoded.grids
    let fresh ← renderRecords fresh grids
    let candidate := reused ++ fresh
    .ok (candidate.map PreparedMessage.rendered, { messages := candidate },
      { encoded
        imageFingerprints := sources.map VisionImageSource.fingerprint
        fingerprint := if sources = [] then 0 else nonzero state
        sources
        prefixMessagesReused := prefixCount
        prefixImagesReused := prefixSources.length })

end Incremental

end Qw3.Vision
