import Qw3.Lib.Steps
import Qw3.Tokenizer.PreTokenize
import Qw3.Tokenizer.Segments

/-!
# Encoding and decoding

`qwen_normalize_utf8`, `encode_regular_chunk` and `encode` of `tokenizer.cpp`.  The
normalization itself is `utf8proc`, a parameter.

* `encode` — the ids of a text; `fillSlots` — the same by workers, in whatever order they
  finish.
* `fillSlots_eq` — they fill the slots as one worker does, so `encode` has one.
* `decode_encoded_text` — decoding gives the text back, each stretch between special tokens
  normalized.

The first error of a worker is rethrown after all have joined.  Which error comes first
depends on the order in which they finish; whether there is one does not.
-/

namespace Qw3.Tokenizer

/-- `utf8proc_map` with `UTF8PROC_STABLE | UTF8PROC_COMPOSE`: the normalization form C of a
text, or the message of an error.  ASCII is its own normal form. -/
structure Nfc where
  map : Bytes → Except String Bytes
  map_ascii : ∀ text : Bytes, (∀ c ∈ text, c < 0x80) → map text = .ok text

local instance lawful_byte : @LawfulBEq Byte instBEqOfDecidableEq := instLawfulBEq

/-- `qwen_normalize_utf8` -/
def qwenNormalizeUtf8 (nfc : Nfc) (text : Bytes) : Except String Bytes :=
  if ∀ c ∈ text, c < 0x80 then .ok text
  else (nfc.map text).mapError fun message => "tokenizer NFC normalization failed: " ++ message

namespace QwenTokenizer

variable (t : QwenTokenizer) (nfc : Nfc) (u : UnicodeClasses)

/-- `encode_regular_chunk` -/
def encodeRegularChunk (chunk : Bytes) : Except String (List ℤ) :=
  (if ∃ c ∈ chunk, 0x80 ≤ c then qwenNormalizeUtf8 nfc chunk else .ok chunk).map fun normalized =>
    (qwenPreTokenize u normalized).flatMap t.bpePiece

/-- The ids of a segment. -/
def encodeSegment (seg : Segment) : Except String (List ℤ) :=
  match seg.specialId with
  | some id => .ok [id]
  | none => t.encodeRegularChunk nfc u seg.text

/-- The token at the beginning, where one is asked for. -/
def bos (addBosOverride : Bool) : List ℤ :=
  if (addBosOverride ∨ t.addBos) ∧ t.bosId < t.vocabSize then [t.bosId] else []

/-- `encode`, with one worker. -/
def encode (text : Bytes) (addBosOverride : Bool) : Except String (List ℤ) := do
  let encoded ← (t.segments text).mapM (t.encodeSegment nfc u)
  .ok (t.bos addBosOverride ++ encoded.flatten)

/-! The workers take the ordinary segments one by one and may finish in any order. -/

/-- `regular_segments`: the work. -/
def regularSegments (segs : List Segment) : List ℕ :=
  (List.range segs.length).filter fun i => (segs[i]?.bind Segment.specialId).isNone

/-- `encoded`, before the workers start. -/
def specialSlots (segs : List Segment) : List (List ℤ) := segs.map fun seg => seg.specialId.toList

/-- `encode_segment`, without the slot that it fills. -/
def encodeWork (segs : List Segment) (i : ℕ) : Except String (List ℤ) :=
  match segs[i]? with
  | some seg => t.encodeRegularChunk nfc u seg.text
  | none => .ok []

/-- The slots are filled in the order in which the workers finish; the first error is
thrown. -/
def fillSlots (segs : List Segment) (slots : List (List ℤ)) : List ℕ → Except String (List (List ℤ))
  | [] => .ok slots
  | i :: order =>
      match t.encodeWork nfc u segs i with
      | .error message => .error message
      | .ok ids => fillSlots segs (slots.set i ids) order

/-- A segment as decoding gives it back: a stretch is normalized. -/
def normalized (seg : Segment) : Except String Bytes :=
  match seg.specialId with
  | some _ => .ok seg.text
  | none => (nfc.map seg.text).mapError fun message => "tokenizer NFC normalization failed: " ++ message

variable {t nfc u} {text w : Bytes} {id : ℤ} {segs : List Segment} {addBosOverride : Bool}

/-! ## The workers -/

theorem fillSlots_spec {slots slots' : List (List ℤ)} {order : List ℕ}
    (h : t.fillSlots nfc u segs slots order = .ok slots') :
    slots'.length = slots.length ∧ ∀ i, (i ∈ order → i < slots.length →
      t.encodeWork nfc u segs i = .ok (slots'.getD i [])) ∧
        (i ∉ order → slots'.getD i [] = slots.getD i []) := by
  induction order generalizing slots with
  | nil =>
      rw [← Except.ok.inj h]
      exact ⟨rfl, fun i => ⟨fun hi => absurd hi List.not_mem_nil, fun _ => rfl⟩⟩
  | cons j order ih =>
      unfold fillSlots at h
      cases hwork : t.encodeWork nfc u segs j with
      | error message =>
          rw [hwork] at h
          cases h
      | ok ids =>
          rw [hwork] at h
          obtain ⟨hlength, hslots⟩ := ih h
          rw [List.length_set] at hlength hslots
          refine ⟨hlength, fun i => ⟨?_, ?_⟩⟩
          · intro hi hlt
            by_cases hlater : i ∈ order
            · exact (hslots i).1 hlater hlt
            · have hij : i = j := (List.mem_cons.mp hi).resolve_right hlater
              rw [(hslots i).2 hlater, hij, List.getD_eq_getElem _ _ (by rwa [List.length_set, ← hij]),
                List.getElem_set_self, hwork]
          · intro hi
            rw [List.mem_cons, not_or] at hi
            rw [(hslots i).2 hi.2, List.getD_eq_getElem?_getD, List.getElem?_set_ne (Ne.symm hi.1),
              List.getD_eq_getElem?_getD]

theorem fillSlots_error {slots : List (List ℤ)} {order : List ℕ} {message : String}
    (h : t.fillSlots nfc u segs slots order = .error message) :
    ∃ i ∈ order, t.encodeWork nfc u segs i = .error message := by
  induction order generalizing slots with
  | nil => cases h
  | cons j order ih =>
      unfold fillSlots at h
      cases hwork : t.encodeWork nfc u segs j with
      | error message' =>
          rw [hwork] at h
          dsimp only at h
          exact ⟨j, List.mem_cons_self, hwork.trans (congrArg _ (Except.error.inj h))⟩
      | ok ids =>
          rw [hwork] at h
          obtain ⟨i, hi, herror⟩ := ih h
          exact ⟨i, List.mem_cons_of_mem _ hi, herror⟩

theorem mem_regularSegments {i : ℕ} (hi : i < segs.length) :
    i ∈ regularSegments segs ↔ segs[i].specialId = none := by
  unfold regularSegments
  rw [List.mem_filter, List.mem_range, List.getElem?_eq_getElem hi, Option.bind_some, Option.isNone_iff_eq_none]
  exact ⟨fun h => h.2, fun h => ⟨hi, h⟩⟩

theorem encodeWork_eq {i : ℕ} (hi : i < segs.length) (h : segs[i].specialId = none) :
    t.encodeWork nfc u segs i = t.encodeSegment nfc u segs[i] := by
  unfold encodeWork encodeSegment
  rw [List.getElem?_eq_getElem hi, h]

/-- Slots that are filled are the ids of their segments. -/
theorem forall_encodeSegment {order : List ℕ} (horder : ∀ i, i ∈ order ↔ i ∈ regularSegments segs)
    {encoded : List (List ℤ)}
    (h : t.fillSlots nfc u segs (specialSlots segs) order = .ok encoded) :
    List.Forall₂ (fun seg ids => t.encodeSegment nfc u seg = .ok ids) segs encoded := by
  obtain ⟨hlength, hslots⟩ := fillSlots_spec h
  have hcount : (specialSlots segs).length = segs.length := List.length_map _
  rw [List.forall₂_iff_get]
  refine ⟨(hlength.trans hcount).symm, ?_⟩
  intro i hi hi'
  rw [List.get_eq_getElem, List.get_eq_getElem]
  cases hid : segs[i].specialId with
  | none =>
      have hwork := (hslots i).1 ((horder i).mpr ((mem_regularSegments hi).mpr hid)) (hcount.symm ▸ hi)
      rwa [encodeWork_eq hi hid, List.getD_eq_getElem _ _ hi'] at hwork
  | some id =>
      have hnot : i ∉ order := by
        rw [horder i, mem_regularSegments hi, hid]
        exact Option.some_ne_none id
      have hslot := (hslots i).2 hnot
      rw [List.getD_eq_getElem _ _ hi', List.getD_eq_getElem _ _ (hcount.symm ▸ hi)] at hslot
      unfold specialSlots at hslot
      rw [List.getElem_map, hid] at hslot
      unfold encodeSegment
      rw [hid, hslot]
      rfl

/-- **Whatever the order is in which the workers finish**, they fill the slots as one worker
does. -/
theorem fillSlots_eq {order : List ℕ} (horder : ∀ i, i ∈ order ↔ i ∈ regularSegments segs)
    {encoded : List (List ℤ)} :
    t.fillSlots nfc u segs (specialSlots segs) order = .ok encoded ↔
      segs.mapM (t.encodeSegment nfc u) = .ok encoded := by
  constructor
  · intro h
    exact Except.mapM_eq_ok.mpr (forall_encodeSegment horder h)
  · intro h
    cases hfill : t.fillSlots nfc u segs (specialSlots segs) order with
    | error message =>
        -- the segment that fails makes the loop fail too
        obtain ⟨i, hi, herror⟩ := fillSlots_error hfill
        have hlt : i < segs.length := by
          have hmem := (horder i).mp hi
          exact List.mem_range.mp (List.mem_filter.mp hmem).1
        have hid := (mem_regularSegments hlt).mp ((horder i).mp hi)
        obtain ⟨hlength, hall⟩ := List.forall₂_iff_get.mp (Except.mapM_eq_ok.mp h)
        have hok := hall i hlt (hlength ▸ hlt)
        rw [List.get_eq_getElem, ← encodeWork_eq hlt hid, herror] at hok
        cases hok
    | ok slots =>
        have hslots := Except.mapM_eq_ok.mpr (forall_encodeSegment horder hfill)
        rw [h] at hslots
        rw [Except.ok.inj hslots]

/-! ## The way back -/

/-- A visible byte is its own character. -/
theorem byteToChar_visible {b : Byte} (h : 0x21 ≤ b.toNat) (h' : b.toNat ≤ 0x7E) : byteToChar b = [b] := by
  have hcode : charOf b.toNat = b.toNat := by
    unfold charOf
    rw [if_neg (by omega), if_pos (by omega)]
  have hascii : BitVec.ofNat 32 b.toNat < 0x80 := by
    rw [BitVec.lt_def, BitVec.toNat_ofNat, Nat.mod_eq_of_lt (by omega)]
    exact Nat.lt_succ_of_le (h'.trans (by decide))
  rw [byteToChar_eq, hcode]
  unfold utf8Encode
  rw [if_pos hascii]
  congr 1
  apply BitVec.eq_of_toNat_eq
  rw [BitVec.toNat_setWidth, BitVec.toNat_ofNat]
  omega

theorem bytesToChars_visible (h : w.all (fun c => 0x21 ≤ c.toNat && c.toNat ≤ 0x7E) = true) :
    bytesToChars w = w := by
  induction w with
  | nil => rfl
  | cons b w ih =>
      rw [List.all_cons, Bool.and_eq_true, Bool.and_eq_true, decide_eq_true_eq, decide_eq_true_eq] at h
      rw [bytesToChars_cons, byteToChar_visible h.1.1 h.1.2, ih h.2]
      rfl

/-- A special token is decoded to its text. -/
theorem decodeOne_special (hw : t.Special w id) : t.decodeOne id = w := by
  obtain ⟨-, -, -, -, hvisible⟩ := candidate_shape w hw.1
  have hwalk := decodeChars_chars (length_le_bytesToChars w) []
  rw [bytesToChars_visible hvisible] at hwalk
  rw [decodeOne_tokenToId hw.2]
  exact hwalk

theorem decode_flatMap_bpePiece (ht : t.Complete) (pieces : List Bytes) :
    t.decode (pieces.flatMap t.bpePiece) = pieces.flatten := by
  induction pieces with
  | nil => rfl
  | cons piece pieces ih =>
      rw [List.flatMap_cons, decode_append, decode_bpePiece ht, ih, List.flatten_cons]

/-- A chunk is decoded to its normal form. -/
theorem decode_encodeRegularChunk (ht : t.Complete) (chunk : Bytes) :
    (t.encodeRegularChunk nfc u chunk).map t.decode =
      (nfc.map chunk).mapError fun message => "tokenizer NFC normalization failed: " ++ message := by
  have hpieces : ∀ text : Bytes, t.decode ((qwenPreTokenize u text).flatMap t.bpePiece) = text := by
    intro text
    rw [decode_flatMap_bpePiece ht, (qwenPreTokenize_spec u text).2.1]
  unfold encodeRegularChunk
  by_cases hunicode : ∃ c ∈ chunk, 0x80 ≤ c
  · have hascii : ¬ ∀ c ∈ chunk, c < 0x80 := by
      intro hall
      obtain ⟨c, hc, hle⟩ := hunicode
      exact absurd (hall c hc) (BitVec.not_lt.mpr hle)
    unfold qwenNormalizeUtf8
    rw [if_pos hunicode, if_neg hascii]
    cases nfc.map chunk with
    | error message => rfl
    | ok normalized => exact congrArg Except.ok (hpieces normalized)
  · have hascii : ∀ c ∈ chunk, c < 0x80 := by
      intro c hc
      by_contra hlt
      exact hunicode ⟨c, hc, BitVec.not_lt.mp hlt⟩
    rw [if_neg hunicode, nfc.map_ascii chunk hascii]
    exact congrArg Except.ok (hpieces chunk)

theorem decode_encodeSegment (ht : t.Complete) {seg : Segment}
    (hspecial : ∀ id, seg.specialId = some id → t.Special seg.text id) :
    (t.encodeSegment nfc u seg).map t.decode = normalized nfc seg := by
  unfold encodeSegment normalized
  cases hid : seg.specialId with
  | none => exact decode_encodeRegularChunk ht seg.text
  | some id =>
      apply congrArg Except.ok
      unfold decode
      rw [List.flatMap_singleton, decodeOne_special (hspecial id hid)]

theorem decode_flatten (encoded : List (List ℤ)) :
    t.decode encoded.flatten = (encoded.map t.decode).flatten := by
  induction encoded with
  | nil => rfl
  | cons ids encoded ih =>
      rw [List.flatten_cons, decode_append, ih, List.map_cons, List.flatten_cons]

/-- The segments are decoded one by one. -/
theorem decode_encode_segments (ht : t.Complete) (hbos : t.bos addBosOverride = []) (text : Bytes) :
    (t.encode nfc u text addBosOverride).map t.decode =
      ((t.segments text).mapM (normalized nfc)).map List.flatten := by
  have hsegments : ((t.segments text).mapM (t.encodeSegment nfc u)).map (List.map t.decode) =
      (t.segments text).mapM (normalized nfc) := by
    apply Except.map_mapM
    intro seg hseg
    exact decode_encodeSegment ht ((splits_segments t text).special seg hseg)
  rw [← hsegments]
  unfold encode
  rw [hbos]
  cases (t.segments text).mapM (t.encodeSegment nfc u) with
  | error message => rfl
  | ok encoded => exact congrArg Except.ok (decode_flatten encoded)

/-- A stretch of ASCII is its own normal form. -/
theorem normalized_ascii {seg : Segment} (h : ∀ c ∈ seg.text, c < 0x80) : normalized nfc seg = .ok seg.text := by
  unfold normalized
  cases seg.specialId with
  | some id => rfl
  | none =>
      dsimp only
      rw [nfc.map_ascii seg.text h]
      rfl

theorem mapM_normalized_ascii (h : ∀ seg ∈ segs, ∀ c ∈ seg.text, c < 0x80) :
    segs.mapM (normalized nfc) = .ok (segs.map Segment.text) := by
  rw [Except.mapM_eq_ok, List.forall₂_map_right_iff, List.forall₂_same]
  intro seg hseg
  exact normalized_ascii (h seg hseg)

/-- The stretches of an ASCII text. -/
theorem ascii_segments (hascii : ∀ c ∈ text, c < 0x80) : ∀ seg ∈ t.segments text, ∀ c ∈ seg.text, c < 0x80 := by
  intro seg hseg c hc
  apply hascii c
  rw [← (splits_segments t text).covers]
  exact List.mem_flatMap.mpr ⟨seg, hseg, hc⟩

/-- **Decoding gives the text back**, each stretch between special tokens normalized; an
ASCII text comes back as it is. -/
theorem decode_encoded_text (ht : t.Complete) (hbos : t.bos addBosOverride = []) (text : Bytes) :
    (∃ segs, t.Splits text segs ∧ (t.encode nfc u text addBosOverride).map t.decode =
      (segs.mapM (normalized nfc)).map List.flatten) ∧
      ((∀ c ∈ text, c < 0x80) → (t.encode nfc u text addBosOverride).map t.decode = .ok text) := by
  have hsplits := splits_segments t text
  rw [decode_encode_segments ht hbos]
  refine ⟨⟨t.segments text, hsplits, rfl⟩, ?_⟩
  intro hascii
  rw [mapM_normalized_ascii (ascii_segments hascii)]
  exact congrArg Except.ok hsplits.covers

/-! ## A vocabulary without merges -/

/-- The id of a byte that is taken alone. -/
def byteIds (t : QwenTokenizer) (b : Byte) : List ℤ := t.symbolIds (utf8Encode (BitVec.ofNat 32 (charOf b.toNat)))

theorem encodeSegment_of_no_merges (h : t.merges = []) {seg : Segment} (hascii : ∀ c ∈ seg.text, c < 0x80) :
    t.encodeSegment nfc u seg = .ok (seg.specialId.elim (seg.text.flatMap t.byteIds) fun id => [id]) := by
  have hbyte : (fun b => t.symbolIds (byteToChar b)) = t.byteIds := by
    funext b
    rw [byteToChar_eq]
    rfl
  have hplain : ¬ ∃ c ∈ seg.text, 0x80 ≤ c := by
    rintro ⟨c, hc, hle⟩
    exact absurd (hascii c hc) (BitVec.not_lt.mpr hle)
  have hpieces : ∀ pieces : List Bytes, pieces.flatMap (List.flatMap t.byteIds) =
      pieces.flatten.flatMap t.byteIds := by
    intro pieces
    rw [List.flatten_eq_flatMap, List.flatMap_assoc]
    rfl
  unfold encodeSegment
  cases seg.specialId with
  | some id => rfl
  | none =>
      dsimp only
      unfold encodeRegularChunk
      rw [if_neg hplain]
      rw [funext (bpePiece_of_no_merges h), hbyte]
      refine congrArg Except.ok ?_
      dsimp only
      rw [hpieces, (qwenPreTokenize_spec u seg.text).2.1]
      rfl

/-- **Without merges** an ASCII text is encoded byte by byte. -/
theorem encode_of_no_merges (h : t.merges = []) (hascii : ∀ c ∈ text, c < 0x80) :
    t.encode nfc u text addBosOverride = .ok (t.bos addBosOverride ++
      (t.segments text).flatMap fun seg => seg.specialId.elim (seg.text.flatMap t.byteIds) fun id => [id]) := by
  have hsegments : (t.segments text).mapM (t.encodeSegment nfc u) =
      .ok ((t.segments text).map fun seg => seg.specialId.elim (seg.text.flatMap t.byteIds) fun id => [id]) := by
    rw [Except.mapM_eq_ok, List.forall₂_map_right_iff, List.forall₂_same]
    intro seg hseg
    exact encodeSegment_of_no_merges h (ascii_segments hascii seg hseg)
  unfold encode
  rw [hsegments, List.flatMap_def]
  rfl

/-! ## Examples -/

/-- The alphabet, one merge and one special token. -/
def sample : QwenTokenizer where
  tokens := ((List.range 256).map fun b => byteToChar (BitVec.ofNat 8 b)) ++ ["ab", "<think>"].map bytes
  merges := [some (bytes "a", bytes "b")]
  bosId := 0
  addBos := false
  tokens_lt := by
    rw [List.length_append, List.length_map, List.length_range]
    decide

theorem complete_sample : sample.Complete where
  alphabet := by
    intro b
    apply List.mem_append_left
    rw [List.mem_map]
    exact ⟨b.toNat, List.mem_range.mpr b.isLt, by rw [BitVec.ofNat_toNat, BitVec.setWidth_eq]⟩
  merged := by
    intro left right h
    obtain ⟨rfl, rfl⟩ := Prod.mk.inj (Option.some.inj (List.mem_singleton.mp h))
    apply List.mem_append_right
    decide

/-- An `e` and an accent are one letter. -/
def sampleNfc : Nfc where
  map text :=
    if ∀ c ∈ text, c < 0x80 then .ok text
    else if text = [0x65, 0xCC, 0x81] then .ok [0xC3, 0xA9]
    else .error "Invalid UTF-8 string"
  map_ascii _ h := if_pos h

theorem decode_encoded_text_sample :
    (∃ segs, sample.Splits (bytes "<think>" ++ [0x65, 0xCC, 0x81]) segs ∧
      (sample.encode sampleNfc .ascii (bytes "<think>" ++ [0x65, 0xCC, 0x81]) false).map sample.decode =
        (segs.mapM (normalized sampleNfc)).map List.flatten) ∧
      ((∀ c ∈ bytes "<think>" ++ [0x65, 0xCC, 0x81], c < 0x80) →
        (sample.encode sampleNfc .ascii (bytes "<think>" ++ [0x65, 0xCC, 0x81]) false).map sample.decode =
          .ok (bytes "<think>" ++ [0x65, 0xCC, 0x81])) :=
  decode_encoded_text complete_sample (if_neg fun h => absurd h.1 (by decide)) _

end QwenTokenizer

end Qw3.Tokenizer
