import Qw3.Vision.Positions

/-!
# What the whole function computes

* `laidOut` — the result, from where the images stand.
* `Resumes` — a beginning of the prompt that is laid out already.
* `finalizeVisionTokens_iff` — from such a beginning on the function computes the
  result, exactly when the images that are left stand in the rest.
-/

namespace Qw3.Vision

variable {β : Type} {m : Markers} {f : Features β} {n s row : ℕ} {d : PlacedImage}
  {ds es : List PlacedImage} {st : Placing β}

/-! ## The images of a prompt, placed -/

theorem allDrawn_embeddingRow : (allDrawn m f st ds).embeddingRow = st.embeddingRow + totalRows ds := by
  induction ds generalizing st with
  | nil => rfl
  | cons d ds ih =>
      have htotal : totalRows (d :: ds) = d.rows + totalRows ds := List.sum_cons
      rw [allDrawn_cons, ih, htotal, ← Nat.add_assoc]
      rfl

theorem allDrawn_spans : (allDrawn m f st ds).spans = st.spans ++ ds.map PlacedImage.span := by
  induction ds generalizing st with
  | nil => exact (List.append_nil _).symm
  | cons d ds ih =>
      rw [allDrawn_cons, ih, List.map_cons]
      exact List.append_assoc _ _ _

theorem allDrawn_overrides : (allDrawn m f st ds).overrides =
    st.overrides ++ overridesAt m f (fun _ => (0, 0, 0)) st.embeddingRow ds := by
  induction ds generalizing st with
  | nil => exact (List.append_nil _).symm
  | cons d ds ih =>
      have hdrawn : (drawn m f st d).overrides = st.overrides ++ (List.range d.rows).map fun k =>
          freshOverride m f d.fingerprint (st.embeddingRow + k) k := by
        refine congrArg (st.overrides ++ ·) (List.map_congr_left fun k _ => ?_)
        rw [Nat.zero_add]
      have hrow : (drawn m f st d).embeddingRow = st.embeddingRow + d.rows := rfl
      rw [allDrawn_cons, ih, hdrawn, hrow, List.append_assoc]
      rfl

theorem allDrawn_modality (i : ℕ) :
    (allDrawn m f st ds).modality i = (inImage ds i || st.modality i) := by
  induction ds generalizing st with
  | nil => rfl
  | cons d ds ih =>
      have hrange : d.stop = d.start + 1 + d.rows := rfl
      have hd : (drawn m f st d).modality i =
          (decide (d.start < i ∧ i < d.stop) || st.modality i) := by
        change (decide (d.start + 1 + 0 ≤ i ∧ i < d.start + 1 + 0 + d.rows) || _) = _
        rw [hrange, Nat.add_zero]
        rfl
      rw [allDrawn_cons, ih, hd]
      unfold inImage
      rw [List.any_cons, ← Bool.or_assoc, Bool.or_comm (ds.any _)]

/-- What is placed is determined by the rows that were placed before. -/
theorem allDrawn_tokens_congr {f' : Features β} {st' : Placing β} {i : ℕ}
    (hrow : st.embeddingRow = st'.embeddingRow) (h : st.tokens i = st'.tokens i) :
    (allDrawn m f st ds).tokens i = (allDrawn m f' st' ds).tokens i := by
  induction ds generalizing st st' with
  | nil => exact h
  | cons d ds ih =>
      rw [allDrawn_cons, allDrawn_cons]
      apply ih
      · exact congrArg (· + d.rows) hrow
      · unfold drawn rowsDrawn
        dsimp only
        rw [hrow, h]

theorem allDrawn_tokens_of_not_inImage {i : ℕ} (h : inImage ds i = false) :
    (allDrawn m f st ds).tokens i = st.tokens i := by
  induction ds generalizing st with
  | nil => rfl
  | cons d ds ih =>
      have hrange : d.stop = d.start + 1 + d.rows := rfl
      unfold inImage at h
      rw [List.any_cons, Bool.or_eq_false_iff, decide_eq_false_iff_not] at h
      rw [allDrawn_cons, ih h.2]
      apply if_neg
      omega

/-- The rows that are placed have their virtual IDs. -/
theorem numbered_allDrawn {tokens : ℕ → Token} (hfits : Fits m n tokens s ds) :
    Numbered (allDrawn m f st ds).tokens st.embeddingRow ds := by
  induction ds generalizing st s with
  | nil => trivial
  | cons d ds ih =>
      obtain ⟨-, -, hrest⟩ := hfits
      have hrange : d.stop = d.start + 1 + d.rows := rfl
      refine ⟨fun k hk => ?_, ih hrest⟩
      have hlater : inImage ds (d.start + 1 + k) = false := by
        apply inImage_of_le_start
        intro e he
        have hafter := hrest.le_start e he
        omega
      refine (allDrawn_tokens_of_not_inImage hlater).trans ((if_pos (by omega)).trans ?_)
      congr 2
      omega

theorem Override.cacheIdentity_mk (tokenId sourceTokenId : BitVec 32) (position : Mrope)
    (cacheIdentity : BitVec 64) (data : RowData β) :
    (Override.mk tokenId sourceTokenId position cacheIdentity data).cacheIdentity = cacheIdentity := rfl

theorem Override.cacheIdentity_at (o : Override β) (position : Mrope) :
    ({ o with position } : Override β).cacheIdentity = o.cacheIdentity := rfl

theorem freshOverride_cacheIdentity (fingerprint : BitVec 64) (row j : ℕ) :
    (freshOverride m f fingerprint row j).cacheIdentity =
      multimodalRowCacheIdentity fingerprint (BitVec.ofNat 32 j) := by
  unfold freshOverride
  exact Override.cacheIdentity_mk _ _ _ _ _

theorem identities_rows (P : ℕ → Mrope) (d : PlacedImage) (row : ℕ) :
    ((List.range d.rows).map fun k => { freshOverride m f d.fingerprint (row + k) k with
      position := P (d.start + 1 + k) }).map Override.cacheIdentity =
      (List.range d.rows).map fun k => multimodalRowCacheIdentity d.fingerprint (BitVec.ofNat 32 k) := by
  rw [List.map_map]
  apply List.map_congr_left
  intro k _
  rw [Function.comp_apply]
  exact (Override.cacheIdentity_at _ _).trans (@freshOverride_cacheIdentity _ m f d.fingerprint (row + k) k)

/-- The rows keep the identities of their images. -/
theorem eachRow_identities {P : ℕ → Mrope} (A : List (BitVec 64)) :
    EachRow (fun d k row => (A ++ (overridesAt m f P A.length ds).map Override.cacheIdentity).getD row 0 =
      multimodalRowCacheIdentity d.fingerprint (BitVec.ofNat 32 k)) A.length ds := by
  induction ds generalizing A with
  | nil => trivial
  | cons d ds ih =>
      rw [overridesAt, List.map_append, identities_rows, ← List.append_assoc]
      generalize hids : ((List.range d.rows).map fun k =>
        multimodalRowCacheIdentity d.fingerprint (BitVec.ofNat 32 k)) = ids
      have hlength : ids.length = d.rows := by
        rw [← hids, List.length_map, List.length_range]
      refine ⟨fun k hk => ?_, ?_⟩
      · change List.getD _ (A.length + k) 0 = _
        rw [List.getD_append _ _ _ _ (by rw [List.length_append]; omega),
          List.getD_append_right _ _ _ _ (Nat.le_add_right _ _), Nat.add_sub_cancel_left,
          List.getD_eq_getElem _ _ (hlength.symm ▸ hk)]
        subst hids
        rw [List.getElem_map, List.getElem_range]
      · have hrest := ih (A ++ ids)
        rwa [List.length_append, hlength] at hrest

/-! ## The result -/

section Result

variable (m) (tokens : List Token) (prepared : PreparedImages β)

/-- The images of a request. -/
def images : List (Grid × BitVec 64) := prepared.encoded.grids.zip prepared.imageFingerprints

/-- The number of rows of the images of a request. -/
def imageRows : ℕ := (prepared.encoded.grids.map fun grid => grid.rows.toNat).sum

/-- What is asked of a request, whatever the prompt is. -/
structure Valid : Prop where
  active : prepared.encoded.grids ≠ []
  request : checkRequest m prepared = .ok ()
  limit : imageRows prepared ≤ rowLimit
  rows : checkRows prepared.encoded.features (imageRows prepared) = .ok ()
  even : ∀ grid ∈ prepared.encoded.grids, EvenGrid grid

/-- The prompt before anything is placed. -/
def beginning : Placing β := ⟨fun i => tokens.getD i 0, fun _ => false, [], [], 0, 0⟩

/-- The result, from the tokens, the spans, the positions and the rows. -/
def assembled (reused : ℕ) (mapped : ℕ → Token) (spans : List (ℕ × ℕ)) (positions : ℕ → Mrope)
    (overrides : List (Override β)) : Finalized β where
  tokens := (List.range tokens.length).map mapped
  positions := (List.range tokens.length).map positions
  tokenSpans := spans
  overrides := overrides
  fingerprint := prepared.fingerprint
  mappingTokensReused := reused
  saved := {
    rawTokens := tokens
    mappedTokens := (List.range tokens.length).map mapped
    positions := (List.range tokens.length).map positions
    rowIdentities := overrides.map Override.cacheIdentity
    spans := spans
    images := prepared.sources
    grids := prepared.encoded.grids
    imagePad := m.imagePad
    visionStart := m.visionStart
    visionEnd := m.visionEnd
    dim := prepared.encoded.features.embeddingDim }

/-- The result, from where the images stand. -/
def laidOut (reused : ℕ) (ds : List PlacedImage) : Finalized β :=
  assembled m tokens prepared reused
    (allDrawn m prepared.encoded.features (beginning tokens) ds).tokens (ds.map PlacedImage.span)
    (layoutPositions 0 0 ds)
    (overridesAt m prepared.encoded.features (layoutPositions 0 0 ds) 0 ds)

/-- The prompt up to `stable`, with the images `ds`, is laid out already. -/
structure Resumes (ds : List PlacedImage) (stable : ℕ) (begun : Placing β × Positioning β) : Prop where
  fits : Fits m tokens.length (fun i => tokens.getD i 0) 0 ds
  sources : ds.map PlacedImage.source = (images prepared).take ds.length
  even : ∀ d ∈ ds, EvenGrid d.grid
  limit : totalRows ds ≤ rowLimit
  stop_lt : ∀ d ∈ ds, d.stop < stable
  stable_le : stable ≤ tokens.length
  mapped : begun.1.tokens = (allDrawn m prepared.encoded.features (beginning tokens) ds).tokens
  modality : begun.1.modality = fun _ => false
  overrides : begun.1.overrides =
    overridesAt m prepared.encoded.features (layoutPositions 0 0 ds) 0 ds
  spans : begun.1.spans = ds.map PlacedImage.span
  embeddingRow : begun.1.embeddingRow = totalRows ds
  search : begun.1.search = stable
  pos : begun.2.pos = stable
  current : begun.2.current = (layoutPositions 0 0 ds stable).1
  positions : ∀ i < stable, begun.2.positions i = layoutPositions 0 0 ds i

/-- Nothing is laid out at the beginning. -/
theorem resumes_beginning :
    Resumes m tokens prepared [] 0 (beginning tokens, ⟨0, 0, fun _ => (0, 0, 0), []⟩) where
  fits := trivial
  sources := rfl
  even _ hd := absurd hd List.not_mem_nil
  limit := Nat.zero_le _
  stop_lt _ hd := absurd hd List.not_mem_nil
  stable_le := Nat.zero_le _
  mapped := rfl
  modality := rfl
  overrides := rfl
  spans := rfl
  embeddingRow := rfl
  search := rfl
  pos := rfl
  current := rfl
  positions _ hi := absurd hi (Nat.not_lt_zero _)

/-- The function, step by step. -/
theorem finalizeVisionTokens_eq_ok {previous : Option VisionTokenMapping} {r : Finalized β} :
    finalizeVisionTokens m tokens prepared previous = .ok (some r) ↔
      prepared.encoded.grids ≠ [] ∧ checkRequest m prepared = .ok () ∧
      ∃ placed, placeImages m prepared.encoded.features tokens.length
          ((images prepared).drop (reuse m tokens prepared previous).2)
          (copied m tokens prepared previous).1 = .ok placed ∧
        checkRows prepared.encoded.features placed.embeddingRow = .ok () ∧
      ∃ positioned, assignPositions placed.tokens placed.modality tokens.length tokens.length
          (prepared.encoded.grids.drop (reuse m tokens prepared previous).2)
          { (copied m tokens prepared previous).2 with overrides := placed.overrides } = .ok positioned ∧
        r = assembled m tokens prepared (reuse m tokens prepared previous).1 placed.tokens placed.spans
          positioned.positions positioned.overrides := by
  unfold finalizeVisionTokens images
  by_cases hgrids : prepared.encoded.grids = []
  · rw [if_pos hgrids]
    constructor
    · intro h
      cases h
    · intro h
      exact absurd hgrids h.1
  · rw [if_neg hgrids, Except.bind_eq_ok]
    constructor
    · rintro ⟨⟨⟩, hrequest, h⟩
      obtain ⟨placed, hplaced, h⟩ := Except.bind_eq_ok.mp h
      obtain ⟨⟨⟩, hrows, h⟩ := Except.bind_eq_ok.mp h
      obtain ⟨positioned, hpositioned, h⟩ := Except.bind_eq_ok.mp h
      exact ⟨hgrids, hrequest, placed, hplaced, hrows, positioned, hpositioned,
        (Option.some.inj (Except.ok.inj h)).symm⟩
    · rintro ⟨-, hrequest, placed, hplaced, hrows, positioned, hpositioned, rfl⟩
      exact ⟨(), hrequest, Except.bind_eq_ok.mpr ⟨placed, hplaced, Except.bind_eq_ok.mpr ⟨(), hrows,
        Except.bind_eq_ok.mpr ⟨positioned, hpositioned, rfl⟩⟩⟩⟩

variable {m tokens prepared}

theorem checkRequest_eq_ok (h : checkRequest m prepared = .ok ()) :
    m.imagePad ≠ m.visionEnd ∧ m.visionStart ≠ m.visionEnd ∧ m.imagePad ≠ m.visionStart ∧
      prepared.imageFingerprints.length = prepared.encoded.grids.length := by
  unfold checkRequest at h
  split_ifs at h with hmissing hdim hcount
  simp only [not_or, Bool.not_eq_true] at hmissing
  obtain ⟨hpad, hstart, hend⟩ := hmissing
  obtain ⟨h₁, h₂, h₃⟩ := m.distinct hpad hstart hend
  exact ⟨h₂, h₃, h₁, not_not.mp hcount⟩

/-- The images of a request are its grids. -/
theorem map_fst_images (h : prepared.imageFingerprints.length = prepared.encoded.grids.length) :
    (images prepared).map Prod.fst = prepared.encoded.grids := by
  unfold images
  exact List.map_fst_zip h.ge

theorem totalRows_eq : totalRows ds = ((ds.map PlacedImage.source).map fun i => i.1.rows.toNat).sum := by
  unfold totalRows
  rw [List.map_map]
  rfl

theorem map_grid_eq : ds.map PlacedImage.grid = (ds.map PlacedImage.source).map Prod.fst := by
  rw [List.map_map]
  rfl

/-- The images that were placed are all the images of the request. -/
theorem totalRows_eq_imageRows (hds : ds.map PlacedImage.source = (images prepared).take n)
    (hes : es.map PlacedImage.source = (images prepared).drop n)
    (h : prepared.imageFingerprints.length = prepared.encoded.grids.length) :
    totalRows ds + totalRows es = imageRows prepared := by
  unfold imageRows
  rw [← map_fst_images h, List.map_map, totalRows_eq, totalRows_eq, hds, hes, ← List.sum_append,
    ← List.map_append, List.take_append_drop]
  rfl

section Resumed

variable {stable : ℕ} {begun : Placing β × Positioning β} {positioned : Positioning β}

/-- Nothing is placed after the beginning. -/
theorem Resumes.raw (hr : Resumes m tokens prepared ds stable begun) {i : ℕ} (hi : stable ≤ i) :
    begun.1.tokens i = tokens.getD i 0 := by
  rw [hr.mapped]
  apply allDrawn_tokens_of_not_inImage
  apply inImage_of_stop_le
  intro d hd
  exact (hr.stop_lt d hd).le.trans hi

/-- What is placed after the beginning is placed as if from the start. -/
theorem Resumes.tokens_eq (hr : Resumes m tokens prepared ds stable begun) :
    (allDrawn m prepared.encoded.features begun.1 es).tokens =
      (allDrawn m prepared.encoded.features (beginning tokens) (ds ++ es)).tokens := by
  funext i
  rw [allDrawn_append]
  apply allDrawn_tokens_congr
  · rw [hr.embeddingRow, allDrawn_embeddingRow]
    exact (Nat.zero_add _).symm
  · rw [hr.mapped]

/-- The positions, of the beginning and of the rest. -/
theorem Resumes.positions_eq (hr : Resumes m tokens prepared ds stable begun)
    (hes : ∀ e ∈ es, stable ≤ e.start) (i : ℕ) :
    layoutPositions 0 0 (ds ++ es) i =
      if i < begun.2.pos then begun.2.positions i
      else layoutPositions begun.2.current begun.2.pos es i := by
  rw [hr.pos, hr.current]
  split_ifs with hi
  · rw [hr.positions i hi]
    exact layoutPositions_append_of_le fun e he => hi.le.trans (hes e he)
  · exact layoutPositions_append_of_ge (Nat.zero_le _) (fun d hd => (hr.stop_lt d hd).le) hes
      (not_lt.mp hi)

/-- The rows of the beginning and of the rest. -/
theorem Resumes.overrides_eq (hr : Resumes m tokens prepared ds stable begun)
    (hes : ∀ e ∈ es, stable ≤ e.start) :
    begun.1.overrides ++ overridesAt m prepared.encoded.features
        (layoutPositions begun.2.current begun.2.pos es) (totalRows ds) es =
      overridesAt m prepared.encoded.features (layoutPositions 0 0 (ds ++ es)) 0 (ds ++ es) := by
  rw [overridesAt_append, Nat.zero_add, hr.overrides]
  congr 1
  · apply overridesAt_congr
    intro d hd i _ hstop
    have hlt := hr.stop_lt d hd
    rw [layoutPositions_append_of_le fun e he => (hstop.trans hlt).le.trans (hes e he)]
  · apply overridesAt_congr
    intro e he i hstart _
    have hle := hes e he
    rw [hr.positions_eq hes, if_neg]
    rw [hr.pos]
    omega

/-- The loop over the positions goes on after the beginning. -/
theorem Resumes.assignPositions_cases (hr : Resumes m tokens prepared ds stable begun)
    (hpad : m.imagePad ≠ m.visionEnd)
    (hfits : Fits m tokens.length (fun i => tokens.getD i 0) stable es)
    (hlimit : totalRows ds + totalRows es ≤ rowLimit) (placed : Placing β)
    (hplaced : placed = allDrawn m prepared.encoded.features begun.1 es) :
    ((¬ ∀ e ∈ es, EvenGrid e.grid) ∧
      ∃ e, assignPositions placed.tokens placed.modality tokens.length tokens.length
        (es.map PlacedImage.grid) { begun.2 with overrides := placed.overrides } = .error e) ∨
    (∀ e ∈ es, EvenGrid e.grid) ∧
      ∃ positioned, assignPositions placed.tokens placed.modality tokens.length tokens.length
          (es.map PlacedImage.grid) { begun.2 with overrides := placed.overrides } = .ok positioned ∧
        (∀ i < tokens.length, positioned.positions i = layoutPositions 0 0 (ds ++ es) i) ∧
        positioned.overrides =
          overridesAt m prepared.encoded.features (layoutPositions 0 0 (ds ++ es)) 0 (ds ++ es) := by
  have hstart := hfits.le_start
  let st : Positioning β := { begun.2 with overrides := placed.overrides }
  have hn : st.pos ≤ tokens.length := hr.pos.trans_le hr.stable_le
  have hfits' : Fits m tokens.length (fun i => tokens.getD i 0) begun.2.pos es := by
    rwa [hr.pos]
  have hpos : ∀ e ∈ es, 0 < e.rows := fun e he => (hfits.stands e he).rows_pos hpad
  have hmodality : ∀ i, begun.2.pos ≤ i → placed.modality i = inImage es i := by
    intro i _
    rw [hplaced, allDrawn_modality, hr.modality, Bool.or_false]
  have hnumbered : Numbered placed.tokens (totalRows ds) es := by
    rw [hplaced, ← hr.embeddingRow]
    exact numbered_allDrawn hfits
  have hoverrides : placed.overrides = begun.1.overrides ++
      overridesAt m prepared.encoded.features (fun _ => (0, 0, 0)) (totalRows ds) es := by
    rw [hplaced, allDrawn_overrides, hr.embeddingRow]
  have hlength : begun.1.overrides.length = totalRows ds := by
    rw [hr.overrides, length_overridesAt]
  by_cases heven : ∀ e ∈ es, EvenGrid e.grid
  · obtain ⟨positioned, hok, hpositions, hover⟩ := assignPositions_ok hn (Nat.le_add_left _ _) hfits' hpos heven
      hmodality hnumbered hlength hlimit hoverrides
    refine Or.inr ⟨heven, positioned, hok, fun i hi => ?_, ?_⟩
    · rw [hpositions i hi, hr.positions_eq hstart]
    · rw [hover]
      exact hr.overrides_eq hstart
  · exact Or.inl ⟨heven, assignPositions_error hn (Nat.le_add_left _ _) hfits' hpos heven
      hmodality hnumbered hlength hlimit hoverrides⟩

end Resumed

/-- **From a beginning that is laid out** the function lays out the whole prompt, exactly
when the images that are left stand in the rest. -/
theorem finalizeVisionTokens_iff {previous : Option VisionTokenMapping} {stable : ℕ} {r : Finalized β}
    (hreuse : reuse m tokens prepared previous = (stable, ds.length))
    (hr : Resumes m tokens prepared ds stable (copied m tokens prepared previous)) :
    finalizeVisionTokens m tokens prepared previous = .ok (some r) ↔ Valid m prepared ∧
      ∃ es, es.map PlacedImage.source = (images prepared).drop ds.length ∧
        Fits m tokens.length (fun i => tokens.getD i 0) stable es ∧
        Clear m (fun i => tokens.getD i 0) stable es ∧
        r = laidOut m tokens prepared stable (ds ++ es) := by
  rw [finalizeVisionTokens_eq_ok, hreuse]
  generalize copied m tokens prepared previous = begun at hr ⊢
  have hafter : ∀ es, Fits m tokens.length begun.1.tokens begun.1.search es ∧
      Clear m begun.1.tokens begun.1.search es ↔
        Fits m tokens.length (fun i => tokens.getD i 0) stable es ∧
          Clear m (fun i => tokens.getD i 0) stable es := by
    intro es
    rw [hr.search]
    exact fits_clear_congr fun i hi => hr.raw hi
  have hspans : ∀ es, (allDrawn m prepared.encoded.features begun.1 es).spans =
      (ds ++ es).map PlacedImage.span := by
    intro es
    rw [allDrawn_spans, hr.spans, List.map_append]
  have hrow : ∀ es, (allDrawn m prepared.encoded.features begun.1 es).embeddingRow =
      totalRows ds + totalRows es := by
    intro es
    rw [allDrawn_embeddingRow, hr.embeddingRow]
  have hgrids : ∀ es : List PlacedImage, es.map PlacedImage.source = (images prepared).drop ds.length →
      prepared.imageFingerprints.length = prepared.encoded.grids.length →
      prepared.encoded.grids.drop ds.length = es.map PlacedImage.grid := by
    intro es hes hcount
    rw [map_grid_eq, hes, List.map_drop, map_fst_images hcount]
  have heven : ∀ es : List PlacedImage, es.map PlacedImage.source = (images prepared).drop ds.length →
      prepared.imageFingerprints.length = prepared.encoded.grids.length →
      ((∀ e ∈ es, EvenGrid e.grid) ↔ ∀ grid ∈ prepared.encoded.grids, EvenGrid grid) := by
    intro es hes hcount
    have hall : prepared.encoded.grids = ds.map PlacedImage.grid ++ es.map PlacedImage.grid := by
      rw [map_grid_eq, map_grid_eq, hr.sources, hes, ← List.map_append, List.take_append_drop,
        map_fst_images hcount]
    rw [hall, List.forall_mem_append, List.forall_mem_map, List.forall_mem_map]
    exact (and_iff_right hr.even).symm
  have hresult : ∀ es (positioned : Positioning β),
      (∀ i < tokens.length, positioned.positions i = layoutPositions 0 0 (ds ++ es) i) →
      positioned.overrides =
        overridesAt m prepared.encoded.features (layoutPositions 0 0 (ds ++ es)) 0 (ds ++ es) →
      let placed := allDrawn m prepared.encoded.features begun.1 es
      assembled m tokens prepared stable placed.tokens placed.spans positioned.positions
        positioned.overrides = laidOut m tokens prepared stable (ds ++ es) := by
    intro es positioned hpositions hover placed
    have hmap : (List.range tokens.length).map positioned.positions =
        (List.range tokens.length).map (layoutPositions 0 0 (ds ++ es)) :=
      List.map_congr_left fun i hi => hpositions i (List.mem_range.mp hi)
    unfold laidOut assembled
    rw [hmap, hover, hspans, hr.tokens_eq]
  constructor
  · rintro ⟨hactive, hrequest, placed, hplaced, hrows, positioned, hpositioned, rfl⟩
    obtain ⟨hpad, -, -, hcount⟩ := checkRequest_eq_ok hrequest
    obtain ⟨es, hes, hfits, hclear, hlimit, hdrawn⟩ := (placeImages_iff hpad _).mp hplaced
    obtain ⟨hfits, hclear⟩ := (hafter es).mp ⟨hfits, hclear⟩
    have htotal := totalRows_eq_imageRows hr.sources hes hcount
    have hlimit' : totalRows ds + totalRows es ≤ rowLimit := by
      rw [hr.embeddingRow] at hlimit
      rcases hlimit with rfl | hlimit
      · exact hr.limit
      · exact hlimit
    rw [hgrids es hes hcount] at hpositioned
    rcases hr.assignPositions_cases hpad hfits hlimit' placed hdrawn with
      ⟨-, e, herror⟩ | ⟨heven', completed, hok, hpositions, hover⟩
    · rw [herror] at hpositioned
      cases hpositioned
    · rw [hok] at hpositioned
      cases hpositioned
      rw [hdrawn, hrow, htotal] at hrows
      refine ⟨⟨hactive, hrequest, htotal ▸ hlimit', hrows, (heven es hes hcount).mp heven'⟩, es, hes, hfits,
        hclear, ?_⟩
      rw [hdrawn]
      exact hresult es positioned hpositions hover
  · rintro ⟨hvalid, es, hes, hfits, hclear, rfl⟩
    obtain ⟨hpad, -, -, hcount⟩ := checkRequest_eq_ok hvalid.request
    have htotal := totalRows_eq_imageRows hr.sources hes hcount
    have hlimit := htotal.trans_le hvalid.limit
    obtain ⟨hfits', hclear'⟩ := (hafter es).mpr ⟨hfits, hclear⟩
    refine ⟨hvalid.active, hvalid.request, allDrawn m prepared.encoded.features begun.1 es,
      (placeImages_iff hpad _).mpr ⟨es, hes, hfits', hclear', Or.inr ?_, rfl⟩, ?_, ?_⟩
    · rwa [hr.embeddingRow]
    · rw [hrow, htotal]
      exact hvalid.rows
    · rw [hgrids es hes hcount]
      rcases hr.assignPositions_cases hpad hfits hlimit _ rfl with
        ⟨hodd, -⟩ | ⟨-, positioned, hok, hpositions, hover⟩
      · exact absurd ((heven es hes hcount).mpr hvalid.even) hodd
      · exact ⟨positioned, hok, (hresult es positioned hpositions hover).symm⟩

end Result

end Qw3.Vision
