import Qw3.Vision.Request

/-!
# The records of prepared messages

Which record a message has, when each image has one fixed grid.

* `rendered` — a message with a text for each of its images.
* `records` — the records of a list of messages, from an image hash state.
* `messageImages_of_agree` — values that agree up to their numbers have the same
  images, or fail alike.
* `freshRecords_spec` — the two passes over the suffix build its records.
-/

namespace Qw3

namespace Json

variable {number : Number → Number → Bool}

/-! ## Access under agreement -/

variable {a b : Json}

theorem typeName_of_agree (h : agree number a b = true) :
    a.typeName = b.typeName := by
  cases a <;> cases b <;> first | rfl | simp [agree, number?] at h

/-- Values that agree are one string, or neither is a string. -/
theorem string_of_agree (h : agree number a b = true) :
    (∃ s, a = string s ∧ b = string s) ∨ (∀ s, a ≠ string s) ∧ ∀ s, b ≠ string s := by
  cases a with
  | string s =>
    cases b with
    | string t =>
      rw [agree, beq_iff_eq] at h
      exact .inl ⟨s, rfl, by rw [h]⟩
    | _ => simp [agree] at h
  | _ =>
    refine .inr ⟨by simp, ?_⟩
    intro s hb
    subst hb
    simp [agree, number?] at h

theorem getString_of_agree (h : agree number a b = true) :
    a.getString = b.getString := by
  have htype := typeName_of_agree h
  rcases string_of_agree h with ⟨s, rfl, rfl⟩ | ⟨ha, hb⟩
  · rfl
  · have hget : ∀ j : Json, (∀ s, j ≠ string s) → j.getString =
        .error (typeError "302" ("type must be string, but is " ++ j.typeName)) := by
      intro j hj
      cases j <;> first | rfl | exact absurd rfl (hj _)
    rw [hget a ha, hget b hb, htype]

theorem isObject_of_agree (h : agree number a b = true) :
    a.isObject = b.isObject := by
  cases a <;> cases b <;> first | rfl | simp [agree, number?] at h

/-- Members of one key agree. -/
theorem lookup_of_agree (key : String) {ms ns : List (String × Json)}
    (h : agreeMembers number ms ns = true) :
    (ms.lookup key = none ∧ ns.lookup key = none) ∨
      ∃ x y, ms.lookup key = some x ∧ ns.lookup key = some y ∧ agree number x y = true := by
  induction ms generalizing ns with
  | nil =>
    cases ns with
    | nil => exact .inl ⟨rfl, rfl⟩
    | cons n ns => simp [agreeMembers] at h
  | cons m ms ih =>
    cases ns with
    | nil => simp [agreeMembers] at h
    | cons n ns =>
      obtain ⟨k, x⟩ := m
      obtain ⟨l, y⟩ := n
      simp only [agreeMembers, Bool.and_eq_true, beq_iff_eq] at h
      obtain ⟨⟨rfl, hxy⟩, hms⟩ := h
      by_cases hk : key = k
      · subst hk
        exact .inr ⟨x, y, by simp, by simp, hxy⟩
      · have hbeq : (key == k) = false := beq_eq_false_iff_ne.mpr hk
        simpa [List.lookup_cons, hbeq] using ih hms

theorem find?_of_not_object (key : String) {j : Json} (h : j.isObject = false) :
    j.find? key = none := by
  cases j <;> first | rfl | cases h

theorem value_of_not_object {α : Type} (get : Json → Except String α) (key : String) (missing : α)
    {j : Json} (h : j.isObject = false) :
    j.value get key missing =
      .error (typeError "306" ("cannot use value() with " ++ j.typeName)) := by
  cases j <;> first | rfl | cases h

/-- Values that agree are both no objects, or two objects whose members agree. -/
theorem object_of_agree (h : agree number a b = true) :
    (a.isObject = false ∧ b.isObject = false) ∨
      ∃ ms ns, a = object ms ∧ b = object ns ∧ agreeMembers number ms ns = true := by
  have hobject := isObject_of_agree h
  cases a with
  | object ms =>
    cases b with
    | object ns => exact .inr ⟨ms, ns, rfl, rfl, by simpa only [agree] using h⟩
    | _ => cases hobject
  | _ => exact .inl ⟨rfl, hobject.symm⟩

theorem find?_of_agree (key : String) (h : agree number a b = true) :
    (a.find? key = none ∧ b.find? key = none) ∨
      ∃ x y, a.find? key = some x ∧ b.find? key = some y ∧ agree number x y = true := by
  rcases object_of_agree h with ⟨ha, hb⟩ | ⟨ms, ns, rfl, rfl, hms⟩
  · exact .inl ⟨find?_of_not_object key ha, find?_of_not_object key hb⟩
  · exact lookup_of_agree key hms

theorem findString?_of_agree (key : String) (h : agree number a b = true) :
    a.findString? key = b.findString? key := by
  rcases find?_of_agree key h with ⟨ha, hb⟩ | ⟨x, y, ha, hb, hxy⟩
  · rw [findString?, findString?, ha, hb]
  · rcases string_of_agree hxy with ⟨s, rfl, rfl⟩ | ⟨hx, hy⟩
    · rw [findString?, findString?, ha, hb]
    · have hnone : ∀ {j m : Json}, j.find? key = some m → (∀ s, m ≠ string s) → j.findString? key = none := by
        intro j m hj hm
        rw [findString?, hj]
        cases m <;> first | rfl | exact absurd rfl (hm _)
      exact (hnone ha hx).trans (hnone hb hy).symm

/-- `value` of a string member. -/
theorem value_of_agree (key missing : String) (h : agree number a b = true) :
    a.value getString key missing = b.value getString key missing := by
  rcases object_of_agree h with ⟨ha, hb⟩ | ⟨ms, ns, rfl, rfl, hms⟩
  · rw [value_of_not_object getString key missing ha, value_of_not_object getString key missing hb,
      typeName_of_agree h]
  · rcases lookup_of_agree key hms with ⟨hm, hn⟩ | ⟨x, y, hm, hn, hxy⟩
    · simp only [value, hm, hn]
    · simp only [value, hm, hn]
      exact getString_of_agree hxy

theorem agreeItems_iff {xs ys : List Json} :
    agreeItems number xs ys = true ↔ List.Forall₂ (fun x y => agree number x y = true) xs ys := by
  induction xs generalizing ys with
  | nil => cases ys <;> simp [agreeItems]
  | cons x xs ih => cases ys <;> simp [agreeItems, ih]

theorem agreeMembers_replaceMember (key : String) (hab : agree number a b = true)
    {ms ns : List (String × Json)} (h : agreeMembers number ms ns = true) :
    agreeMembers number (replaceMember key a ms) (replaceMember key b ns) = true := by
  induction ms generalizing ns with
  | nil =>
    cases ns with
    | nil => rfl
    | cons n ns => simp [agreeMembers] at h
  | cons m ms ih =>
    cases ns with
    | nil => simp [agreeMembers] at h
    | cons n ns =>
      obtain ⟨k, x⟩ := m
      obtain ⟨l, y⟩ := n
      simp only [agreeMembers, Bool.and_eq_true, beq_iff_eq] at h
      obtain ⟨⟨rfl, hxy⟩, hms⟩ := h
      rw [replaceMember, replaceMember]
      split
      next =>
        simp only [agreeMembers, beq_self_eq_true, Bool.true_and, Bool.and_eq_true]
        exact ⟨hab, hms⟩
      next =>
        simp only [agreeMembers, beq_self_eq_true, Bool.true_and, Bool.and_eq_true]
        exact ⟨hxy, ih hms⟩

end Json

namespace Vision

variable {number : Number → Number → Bool}

/-! ## Images under agreement -/

theorem isImageBlock_of_agree (h : a.agree number b = true) :
    isImageBlock a = isImageBlock b := by
  rw [isImageBlock, isImageBlock, Json.isObject_of_agree h, blockType, blockType,
    Json.value_of_agree "type" "" h]

theorem openaiImageBlock_of_agree (h : a.agree number b = true) :
    openaiImageBlock a = openaiImageBlock b := by
  rcases Json.find?_of_agree "image_url" h with ⟨ha, hb⟩ | ⟨x, y, ha, hb, hxy⟩
  · rw [openaiImageBlock, openaiImageBlock, ha, hb]
  · have hurl := Json.findString?_of_agree "url" hxy
    rw [openaiImageBlock, openaiImageBlock, ha, hb]
    rcases Json.string_of_agree hxy with ⟨s, rfl, rfl⟩ | ⟨hx, hy⟩
    · rfl
    · cases x <;> first | exact absurd rfl (hx _) | skip
      all_goals
        cases y <;> first | exact absurd rfl (hy _) | simp only [hurl]

theorem blockImage_of_agree (h : a.agree number b = true) :
    blockImage a = blockImage b := by
  rw [blockImage, blockImage, isImageBlock_of_agree h, openaiImageBlock_of_agree h]

theorem contentBlocks?_of_agree (h : a.agree number b = true) :
    (contentBlocks? a = none ∧ contentBlocks? b = none) ∨
      ∃ xs ys, contentBlocks? a = some xs ∧ contentBlocks? b = some ys ∧
        Json.agreeItems number xs ys = true := by
  rcases Json.find?_of_agree "content" h with ⟨ha, hb⟩ | ⟨x, y, ha, hb, hxy⟩
  · exact .inl ⟨by rw [contentBlocks?, ha], by rw [contentBlocks?, hb]⟩
  · rw [contentBlocks?, contentBlocks?, ha, hb]
    cases x with
    | array xs =>
      cases y with
      | array ys => exact .inr ⟨xs, ys, rfl, rfl, by simpa only [Json.agree] using hxy⟩
      | _ => simp [Json.agree] at hxy
    | _ =>
      cases y with
      | array ys => simp [Json.agree, Json.number?] at hxy
      | _ => exact .inl ⟨rfl, rfl⟩

theorem blockImages_of_agree {xs ys : List Json} (h : Json.agreeItems number xs ys = true) :
    blockImages xs = blockImages ys := by
  induction Json.agreeItems_iff.mp h with
  | nil => rfl
  | cons hxy hrest ih =>
    rw [blockImages, blockImages, blockImage_of_agree hxy, ih (Json.agreeItems_iff.mpr hrest)]

/-- Messages that agree up to their numbers have the same images. -/
theorem messageImages_of_agree (h : a.agree number b = true) :
    messageImages a = messageImages b := by
  rcases contentBlocks?_of_agree h with ⟨ha, hb⟩ | ⟨xs, ys, ha, hb, hxy⟩
  · rw [messageImages, messageImages, ha, hb]
  · rw [messageImages, messageImages, ha, hb]
    exact blockImages_of_agree hxy

theorem collectImages_of_agree {xs ys : List Json} (h : Json.agreeItems number xs ys = true) :
    collectImages xs = collectImages ys := by
  induction Json.agreeItems_iff.mp h with
  | nil => rfl
  | cons hxy hrest ih =>
    rw [collectImages, collectImages, messageImages_of_agree hxy,
      ih (Json.agreeItems_iff.mpr hrest)]

/-! ## Rendering -/

section Rendering

variable (grid : VisionImage → Grid)

/-- A block, with the text of its image. -/
def renderedBlock (block : Json) : Json :=
  match blockImage block with
  | .ok (some image) => textBlock (grid image)
  | _ => block

/-- A message with a text for each of its images. -/
def rendered (message : Json) : Json :=
  match contentBlocks? message with
  | some blocks => setContent (blocks.map (renderedBlock grid)) message
  | none => message

variable {grid}

theorem agree_refl_textBlock (number : Number → Number → Bool) (g : Grid) :
    (textBlock g).agree number (textBlock g) = true := by
  have hlt : "text" < "type" := by decide
  have hmembers : textBlock g =
      .object [("text", .string (placeholder g)), ("type", .string "text")] := by
    simp only [textBlock, Json.ofMembers, List.foldl, Json.insertMember, if_pos hlt]
  rw [hmembers]
  simp [Json.agree, Json.agreeMembers]

theorem renderedBlock_agree (h : a.agree number b = true) :
    (renderedBlock grid a).agree number (renderedBlock grid b) = true := by
  rw [renderedBlock, renderedBlock, blockImage_of_agree h]
  split
  next => exact agree_refl_textBlock number _
  next => exact h

/-- Messages that agree render to messages that agree. -/
theorem rendered_agree (h : a.agree number b = true) :
    (rendered grid a).agree number (rendered grid b) = true := by
  rcases contentBlocks?_of_agree h with ⟨ha, hb⟩ | ⟨xs, ys, ha, hb, hxy⟩
  · rw [rendered, rendered, ha, hb]
    exact h
  · rw [rendered, rendered, ha, hb]
    have hblocks : Json.agreeItems number (xs.map (renderedBlock grid))
        (ys.map (renderedBlock grid)) = true := by
      rw [Json.agreeItems_iff] at hxy ⊢
      rw [List.forall₂_map_left_iff, List.forall₂_map_right_iff]
      exact hxy.imp fun _ _ hab => renderedBlock_agree hab
    rcases Json.object_of_agree h with ⟨hobject, -⟩ | ⟨ms, ns, rfl, rfl, hms⟩
    · rw [contentBlocks?, Json.find?_of_not_object "content" hobject] at ha
      cases ha
    · simp only [setContent, Json.agree]
      exact Json.agreeMembers_replaceMember "content" (by simpa only [Json.agree] using hblocks) hms

/-- A block without an image is left. -/
theorem isImageBlock_of_blockImage {block : Json} {image : Option VisionImage}
    (h : blockImage block = .ok image) : isImageBlock block = .ok image.isSome := by
  rw [blockImage] at h
  cases hi : isImageBlock block with
  | error e => simp [hi, Except.bind] at h
  | ok b =>
    cases b with
    | false =>
      simp only [hi, Except.bind, Bool.false_eq_true, if_false, Except.ok.injEq] at h
      rw [← h]
      rfl
    | true =>
      cases ho : openaiImageBlock block with
      | error e => simp [hi, ho, Except.bind, Except.map] at h
      | ok v =>
        simp only [hi, ho, Except.bind, if_true, Except.map, Except.ok.injEq] at h
        rw [← h]
        rfl

theorem renderBlocks_eq (missing : Failure) {blocks : List Json} {images : List VisionImage}
    (h : blockImages blocks = .ok images) (rest : List Grid) :
    renderBlocks missing blocks (images.map grid ++ rest) =
      .ok (blocks.map (renderedBlock grid), images.map grid, rest) := by
  induction blocks generalizing images with
  | nil =>
    obtain rfl : [] = images := by simpa [blockImages] using h
    rfl
  | cons block blocks ih =>
    rw [blockImages] at h
    cases hb : blockImage block with
    | error e => simp [hb, Except.bind] at h
    | ok image =>
      cases hr : blockImages blocks with
      | error e => simp [hb, hr, Except.bind, Except.map] at h
      | ok others =>
        obtain rfl : image.toList ++ others = images := by
          simpa [hb, hr, Except.bind, Except.map] using h
        rw [renderBlocks.eq_def]
        simp only [isImageBlock_of_blockImage hb]
        cases image with
        | none => simp [Except.bind, Except.map, ih hr, renderedBlock, hb]
        | some v => simp [Except.bind, Except.map, ih hr, renderedBlock, hb]

theorem renderMessage_eq (missing : Failure) {message : Json} {images : List VisionImage}
    (h : messageImages message = .ok images) (rest : List Grid) :
    renderMessage missing message (images.map grid ++ rest) =
      .ok (rendered grid message, images.map grid, rest) := by
  rw [messageImages] at h
  rw [renderMessage, rendered]
  cases hc : contentBlocks? message with
  | none =>
    obtain rfl : [] = images := by simpa [hc] using h
    rfl
  | some blocks =>
    rw [hc] at h
    simp [renderBlocks_eq missing h rest, Except.map]

variable {messages : List Json}

/-- The images of a list of messages are those of its first and of the others. -/
theorem collectImages_cons {message : Json} {images : List VisionImage}
    (h : collectImages (message :: messages) = .ok images) :
    ∃ first others, messageImages message = .ok first ∧ collectImages messages = .ok others ∧
      images = first ++ others := by
  rw [collectImages] at h
  cases hm : messageImages message with
  | error e => simp [hm, Except.bind] at h
  | ok first =>
    cases hr : collectImages messages with
    | error e => simp [hm, hr, Except.bind, Except.map] at h
    | ok others =>
      refine ⟨first, others, rfl, rfl, ?_⟩
      simpa [hm, hr, Except.bind, Except.map] using h.symm

theorem collectImages_append (xs ys : List Json) :
    collectImages (xs ++ ys) =
      (collectImages xs).bind fun first => (collectImages ys).map fun others => first ++ others := by
  induction xs with
  | nil =>
    cases h : collectImages ys <;> simp [collectImages, Except.bind, Except.map, h]
  | cons x xs ih =>
    rw [List.cons_append, collectImages, collectImages, ih]
    cases messageImages x <;> cases collectImages xs <;> cases collectImages ys <;>
      simp [Except.bind, Except.map]

theorem renderMessages_eq (grid : VisionImage → Grid) (missing : Failure) {images : List VisionImage}
    (h : collectImages messages = .ok images) (rest : List Grid) :
    renderMessages missing messages (images.map grid ++ rest) =
      .ok (messages.map (rendered grid), rest) := by
  induction messages generalizing images with
  | nil =>
    obtain rfl : [] = images := by simpa [collectImages] using h
    rfl
  | cons message messages ih =>
    obtain ⟨first, others, hfirst, hothers, rfl⟩ := collectImages_cons h
    rw [renderMessages, List.map_append, List.append_assoc, renderMessage_eq missing hfirst]
    simp [Except.bind, Except.map, ih hothers]

end Rendering

/-! ## Records -/

section Records

variable (grid : VisionImage → Grid)

/-- The image hash state after some images. -/
def hashState (state : BitVec 64) (images : List VisionImage) : BitVec 64 :=
  (images.map VisionImageSource.mk).foldl VisionImageSource.appendFingerprint state

/-- The images of a message that has some. -/
def imagesOf (message : Json) : List VisionImage := (messageImages message).toOption.getD []

/-- The record of a message. -/
def record (state : BitVec 64) (message : Json) : PreparedMessage where
  raw := message
  rendered := rendered grid message
  images := (imagesOf message).map VisionImageSource.mk
  grids := (imagesOf message).map grid
  imageHashState := hashState state (imagesOf message)

/-- The records of the messages, each from the state that the one before left. -/
def records (state : BitVec 64) : List Json → List PreparedMessage
  | [] => []
  | message :: messages =>
      record grid state message :: records (hashState state (imagesOf message)) messages

variable {grid}

theorem hashState_append (state : BitVec 64) (xs ys : List VisionImage) :
    hashState state (xs ++ ys) = hashState (hashState state xs) ys := by
  simp [hashState, List.foldl_append]

theorem imagesOf_eq {message : Json} {images : List VisionImage}
    (h : messageImages message = .ok images) : imagesOf message = images := by
  simp [imagesOf, h, Except.toOption]

theorem map_raw_records (state : BitVec 64) (messages : List Json) :
    (records grid state messages).map PreparedMessage.raw = messages := by
  induction messages generalizing state with
  | nil => rfl
  | cons message messages ih => simp [records, record, ih]

theorem map_rendered_records (state : BitVec 64) (messages : List Json) :
    (records grid state messages).map PreparedMessage.rendered =
      messages.map (rendered grid) := by
  induction messages generalizing state with
  | nil => rfl
  | cons message messages ih => simp [records, record, ih]

theorem length_records (state : BitVec 64) (messages : List Json) :
    (records grid state messages).length = messages.length := by
  have hraw : (records grid state messages).map PreparedMessage.raw = messages :=
    map_raw_records state messages
  simpa using congrArg List.length hraw

theorem take_records (state : BitVec 64) (messages : List Json) (n : ℕ) :
    (records grid state messages).take n = records grid state (messages.take n) := by
  induction messages generalizing state n with
  | nil => simp [records]
  | cons message messages ih =>
    cases n with
    | zero => simp [records]
    | succ n => simp [records, ih]

variable {state : BitVec 64}

theorem records_append {xs : List Json} {images : List VisionImage}
    (h : collectImages xs = .ok images) (ys : List Json) :
    records grid state (xs ++ ys) =
      records grid state xs ++ records grid (hashState state images) ys := by
  induction xs generalizing state images with
  | nil =>
    obtain rfl : [] = images := by simpa [collectImages] using h
    rfl
  | cons x xs ih =>
    obtain ⟨first, others, hfirst, hothers, rfl⟩ := collectImages_cons h
    rw [List.cons_append, records, records, imagesOf_eq hfirst, ih hothers, hashState_append]
    rfl

theorem flatMap_images_records
    {images : List VisionImage} (h : collectImages messages = .ok images) :
    (records grid state messages).flatMap PreparedMessage.images =
      images.map VisionImageSource.mk := by
  induction messages generalizing state images with
  | nil =>
    obtain rfl : [] = images := by simpa [collectImages] using h
    rfl
  | cons message messages ih =>
    obtain ⟨first, others, hfirst, hothers, rfl⟩ := collectImages_cons h
    simp [records, record, imagesOf_eq hfirst, ih hothers]

theorem flatMap_grids_records
    {images : List VisionImage} (h : collectImages messages = .ok images) :
    (records grid state messages).flatMap PreparedMessage.grids = images.map grid := by
  induction messages generalizing state images with
  | nil =>
    obtain rfl : [] = images := by simpa [collectImages] using h
    rfl
  | cons message messages ih =>
    obtain ⟨first, others, hfirst, hothers, rfl⟩ := collectImages_cons h
    simp [records, record, imagesOf_eq hfirst, ih hothers]

/-- The state that the last record left. -/
theorem last_state_records
    {images : List VisionImage} (h : collectImages messages = .ok images) :
    ((records grid state messages).getLast?.map PreparedMessage.imageHashState).getD state =
      hashState state images := by
  induction messages generalizing state images with
  | nil =>
    obtain rfl : [] = images := by simpa [collectImages] using h
    rfl
  | cons message messages ih =>
    obtain ⟨first, others, hfirst, hothers, rfl⟩ := collectImages_cons h
    have hrest := @ih (hashState state first) others hothers
    rw [records, imagesOf_eq hfirst, hashState_append, ← hrest, List.getLast?_cons]
    cases (records grid (hashState state first) messages).getLast? with
    | none => simp [record, imagesOf_eq hfirst]
    | some r => simp

/-- Each record's state is that of all the images up to its message. -/
theorem getElem?_records {images : List VisionImage}
    (h : collectImages messages = .ok images) {i : ℕ} {r : PreparedMessage}
    (hr : (records grid state messages)[i]? = some r) :
    ∃ before, collectImages (messages.take (i + 1)) = .ok before ∧
      r.imageHashState = hashState state before := by
  induction messages generalizing state images i with
  | nil => simp [records] at hr
  | cons message messages ih =>
    obtain ⟨first, others, hfirst, hothers, rfl⟩ := collectImages_cons h
    cases i with
    | zero =>
      obtain rfl : record grid state message = r := by simpa [records] using hr
      refine ⟨first, ?_, by simp [record, imagesOf_eq hfirst]⟩
      simp [collectImages, hfirst, Except.bind, Except.map]
    | succ i =>
      obtain ⟨before, hbefore, hstate⟩ := ih hothers (by simpa [records] using hr)
      refine ⟨first ++ before, ?_, ?_⟩
      · simp [collectImages, hfirst, hbefore, Except.bind, Except.map]
      · rw [hstate, imagesOf_eq hfirst, hashState_append]

end Records

/-! ## The suffix -/

/-- A suffix whose images cannot be read is not recorded. -/
theorem freshRecords_error {suffix : List Json} {e : Failure}
    (h : collectImages suffix = .error e) : freshRecords state suffix = .error e := by
  induction suffix generalizing state with
  | nil => simp [collectImages] at h
  | cons message messages ih =>
    rw [collectImages] at h
    rw [freshRecords]
    cases hm : messageImages message with
    | error e' => simpa [hm, Except.bind] using h
    | ok first =>
      cases hr : collectImages messages with
      | error e' =>
        simp only [hm, hr, Except.bind, Except.map, Except.error.injEq] at h
        subst h
        simp [Except.bind, Except.map, ih hr]
      | ok others => simp [hm, hr, Except.bind, Except.map] at h

/-- The two passes over the suffix: the first collects its images and leaves the
state of its last record, the second renders what the first built. -/
theorem freshRecords_spec (grid : VisionImage → Grid) (state : BitVec 64) {suffix : List Json}
    {images : List VisionImage} (h : collectImages suffix = .ok images) :
    ∃ fresh, freshRecords state suffix = .ok fresh ∧
      fresh.flatMap PreparedMessage.images = images.map VisionImageSource.mk ∧
      (fresh.getLast?.map PreparedMessage.imageHashState).getD state = hashState state images ∧
      renderRecords fresh (images.map grid) = .ok (records grid state suffix) := by
  induction suffix generalizing state images with
  | nil =>
    obtain rfl : [] = images := by simpa [collectImages] using h
    exact ⟨[], rfl, rfl, rfl, rfl⟩
  | cons message messages ih =>
    obtain ⟨first, others, hfirst, hothers, rfl⟩ := collectImages_cons h
    obtain ⟨fresh, hfresh, himages, hlast, hrender⟩ := ih (hashState state first) hothers
    let unrendered : PreparedMessage :=
      { raw := message, rendered := message, images := first.map VisionImageSource.mk,
        imageHashState := hashState state first }
    refine ⟨unrendered :: fresh, ?_, ?_, ?_, ?_⟩
    · rw [freshRecords, hfirst]
      have hstate : (first.map VisionImageSource.mk).foldl VisionImageSource.appendFingerprint state
          = hashState state first := rfl
      simp [Except.bind, Except.map, hstate, hfresh, unrendered]
    · simp [himages, unrendered]
    · rw [hashState_append, ← hlast, List.getLast?_cons]
      cases fresh.getLast? <;> rfl
    · rw [renderRecords, List.map_append, renderMessage_eq outOfRange hfirst]
      simp [Except.bind, Except.map, hrender, records, record, imagesOf_eq hfirst, unrendered]

/-- The cached grids of the images are found at the front. -/
theorem checkGrids_eq (grids rest : List Grid) : checkGrids grids (grids ++ rest) = .ok rest := by
  induction grids with
  | nil => rfl
  | cons g grids ih => simp [checkGrids, sameVisionGrid, ih]

end Vision

end Qw3
