import Qw3.Vision.Layout

/-!
# A prompt that begins like an earlier one

* `Saved` — the mappings that earlier calls have left.
* `resumes_of_settled` — what is copied from one of them is a beginning that is laid out.
* `Stray` — an image seems to begin in what is copied, where none was placed.
* `incremental_eq_full_iff` — with an earlier mapping the function does what it does
  without, exactly when a stray image leaves both without a place for the images.
-/

namespace Qw3.Vision

variable {β : Type} {m : Markers} {n s row : ℕ} {d : PlacedImage} {ds es : List PlacedImage}

/-! ## What is compared -/

theorem commonPrefix_spec (a b : List Token) : commonPrefix a b ≤ a.length ∧ commonPrefix a b ≤ b.length ∧
    ∀ i < commonPrefix a b, a.getD i 0 = b.getD i 0 := by
  induction a generalizing b with
  | nil => exact ⟨le_rfl, Nat.zero_le _, fun i hi => absurd hi (Nat.not_lt_zero i)⟩
  | cons x a ih =>
      cases b with
      | nil => exact ⟨Nat.zero_le _, le_rfl, fun i hi => absurd hi (Nat.not_lt_zero i)⟩
      | cons y b =>
          unfold commonPrefix
          split_ifs with heq
          · obtain ⟨ha, hb, hsame⟩ := ih b
            refine ⟨Nat.succ_le_succ ha, Nat.succ_le_succ hb, fun i hi => ?_⟩
            cases i with
            | zero => exact heq
            | succ i => exact hsame i (Nat.lt_of_succ_lt_succ hi)
          · exact ⟨Nat.zero_le _, Nat.zero_le _, fun i hi => absurd hi (Nat.not_lt_zero i)⟩

/-- What an image is placed by. -/
def placedBy (image : VisionImageSource × Grid) : Grid × BitVec 64 := (image.2, image.1.fingerprint)

theorem sameVisionGrid_iff (a b : Grid) : sameVisionGrid a b = true ↔ a = b := by
  obtain ⟨t, h, w, r⟩ := a
  obtain ⟨t', h', w', r'⟩ := b
  simp [sameVisionGrid, and_assoc]

/-- Images that compare equal are placed in the same way. -/
theorem imagesEqual_spec (as bs : List (VisionImageSource × Grid)) {k : ℕ} (hk : k ≤ imagesEqual as bs) :
    (as.take k).map placedBy = (bs.take k).map placedBy := by
  induction as generalizing bs k with
  | nil =>
      have hzero : k = 0 := Nat.le_zero.mp hk
      rw [hzero, List.take_zero, List.take_zero]
  | cons a as ih =>
      cases bs with
      | nil =>
          have hzero : k = 0 := Nat.le_zero.mp hk
          rw [hzero, List.take_zero, List.take_zero]
      | cons b bs =>
          cases k with
          | zero => rfl
          | succ k =>
              unfold imagesEqual at hk
              split_ifs at hk with hsame
              · obtain ⟨hgrid, hsource⟩ := hsame
                unfold sameSource at hsource
                rw [decide_eq_true_eq] at hsource
                have hfirst : placedBy a = placedBy b :=
                  Prod.ext ((sameVisionGrid_iff _ _).mp hgrid) hsource.1
                rw [List.take_succ_cons, List.take_succ_cons, List.map_cons, List.map_cons, hfirst,
                  ih bs (Nat.le_of_succ_le_succ hk)]
              · omega

/-- The images of a request with sources. -/
theorem images_eq {prepared : PreparedImages β}
    (h : prepared.sources.length = prepared.encoded.grids.length) :
    images prepared = (prepared.sources.zip prepared.encoded.grids).map placedBy := by
  unfold images
  rw [prepared.identities h]
  generalize prepared.sources = sources
  generalize prepared.encoded.grids = grids
  induction sources generalizing grids with
  | nil =>
      rw [List.map_nil, List.zip_nil_right]
      rfl
  | cons source sources ih =>
      cases grids with
      | nil => rfl
      | cons grid grids =>
          rw [List.map_cons, List.zip_cons_cons, List.zip_cons_cons, List.map_cons, ih]
          rfl

/-- The loop over the spans keeps the images that lie before `stable`, and stops before
the others. -/
theorem wholeSpans_spec {tokens : ℕ → Token} {p stable : ℕ} (hm : m.visionStart ≠ m.visionEnd)
    (hfits : Fits m n tokens p ds) :
    (wholeSpans stable (ds.map PlacedImage.span)).1 ≤ stable ∧
    (wholeSpans stable (ds.map PlacedImage.span)).2 ≤ ds.length ∧
    ((wholeSpans stable (ds.map PlacedImage.span)).1 = stable ∨
      ∃ d ∈ ds, (wholeSpans stable (ds.map PlacedImage.span)).1 = d.start) ∧
    (∀ d ∈ ds.take (wholeSpans stable (ds.map PlacedImage.span)).2,
      d.stop < (wholeSpans stable (ds.map PlacedImage.span)).1) ∧
    (∀ d ∈ ds.drop (wholeSpans stable (ds.map PlacedImage.span)).2,
      (wholeSpans stable (ds.map PlacedImage.span)).1 ≤ d.start) := by
  induction ds generalizing p with
  | nil =>
      refine ⟨le_rfl, le_rfl, Or.inl rfl, ?_, ?_⟩
      · intro d hd
        exact absurd hd List.not_mem_nil
      · intro d hd
        exact absurd hd List.not_mem_nil
  | cons d ds ih =>
      obtain ⟨-, hd, hrest⟩ := hfits
      have hafter := hrest.le_start
      have hrange : d.stop = d.start + 1 + d.rows := rfl
      have hspan : d.span = (d.start, d.stop + 1) := rfl
      rw [List.map_cons, wholeSpans, hspan]
      split_ifs with hcut hpast
      · refine ⟨hcut.1.le, Nat.zero_le _, Or.inr ⟨d, List.mem_cons_self, rfl⟩, ?_, ?_⟩
        · intro e he
          exact absurd he List.not_mem_nil
        · intro e he
          rcases List.mem_cons.mp he with rfl | he
          · exact le_rfl
          · have hle := hafter e he
            dsimp only
            omega
      · refine ⟨le_rfl, Nat.zero_le _, Or.inl rfl, ?_, ?_⟩
        · intro e he
          exact absurd he List.not_mem_nil
        · intro e he
          dsimp only at hcut hpast ⊢
          rcases List.mem_cons.mp he with rfl | he
          · omega
          · have hle := hafter e he
            omega
      · obtain ⟨hle, hlength, hat, hbefore, hlater⟩ := ih hrest
        dsimp only at hcut hpast ⊢
        refine ⟨hle, Nat.succ_le_succ hlength, ?_, ?_, hlater⟩
        · rcases hat with hat | ⟨e, he, hat⟩
          · exact Or.inl hat
          · exact Or.inr ⟨e, List.mem_cons_of_mem _ he, hat⟩
        · intro e he
          rw [List.take_succ_cons] at he
          rcases List.mem_cons.mp he with rfl | he
          · rcases hat with hat | ⟨e', he', hat⟩
            · omega
            · -- the next image begins after this one, as the markers differ
              have hge := hafter e' he'
              have hne : e'.start ≠ e.stop := by
                intro heq
                have hstart := (hrest.stands e' he').start
                unfold Markers.startsAt at hstart
                rw [decide_eq_true_eq, heq, hd.stop] at hstart
                exact hm hstart.1.symm
              omega
          · exact hbefore e he

/-! ## What is copied -/

section Copied

variable {tokens : List Token} {prepared : PreparedImages β}

/-- A prompt whose images were placed at `ds`. -/
structure Settled (m : Markers) (tokens : List Token) (prepared : PreparedImages β)
    (ds : List PlacedImage) : Prop where
  valid : Valid m prepared
  fits : Fits m tokens.length (fun i => tokens.getD i 0) 0 ds
  sources : ds.map PlacedImage.source = images prepared

theorem Settled.length (h : Settled m tokens prepared ds) :
    ds.length = prepared.encoded.grids.length := by
  obtain ⟨-, -, -, hcount⟩ := checkRequest_eq_ok h.valid.request
  have hlength := congrArg List.length h.sources
  rw [List.length_map] at hlength
  unfold images at hlength
  rw [hlength, List.length_zip, hcount, min_self]

theorem Settled.even (h : Settled m tokens prepared ds) : ∀ d ∈ ds, EvenGrid d.grid := by
  obtain ⟨-, -, -, hcount⟩ := checkRequest_eq_ok h.valid.request
  have hgrids : prepared.encoded.grids = ds.map PlacedImage.grid := by
    rw [map_grid_eq, h.sources, map_fst_images hcount]
  intro d hd
  exact h.valid.even _ (hgrids ▸ List.mem_map_of_mem hd)

theorem Settled.limit (h : Settled m tokens prepared ds) : totalRows ds ≤ rowLimit := by
  obtain ⟨-, -, -, hcount⟩ := checkRequest_eq_ok h.valid.request
  have hnone : ([] : List PlacedImage).map PlacedImage.source = (images prepared).take 0 := rfl
  have htotal := totalRows_eq_imageRows hnone (h.sources.trans List.drop_zero.symm) hcount
  have hzero : totalRows [] = 0 := rfl
  rw [hzero, Nat.zero_add] at htotal
  exact htotal.trans_le h.valid.limit

theorem totalRows_take_le (k : ℕ) (ds : List PlacedImage) : totalRows (ds.take k) ≤ totalRows ds := by
  have hsplit : totalRows ds = totalRows (ds.take k) + totalRows (ds.drop k) := by
    unfold totalRows
    rw [← List.sum_append, ← List.map_append, List.take_append_drop]
  omega

theorem getD_map_range {α : Type} (f : ℕ → α) (default : α) {i : ℕ} (hi : i < n) :
    ((List.range n).map f).getD i default = f i := by
  rw [List.getD_eq_getElem _ _ (by rwa [List.length_map, List.length_range]), List.getElem_map,
    List.getElem_range]

/-- The rows that are copied are the rows of the images. -/
theorem copiedOverrides_eq {f : Features β} {previous : VisionTokenMapping} {P : ℕ → Mrope}
    (hnumbered : Numbered (fun i => previous.mappedTokens.getD i 0) row ds)
    (hidentities : EachRow (fun d k row => previous.rowIdentities.getD row 0 =
      multimodalRowCacheIdentity d.fingerprint (BitVec.ofNat 32 k)) row ds)
    (hpositions : ∀ d ∈ ds, ∀ i < d.stop, previous.positions.getD i (0, 0, 0) = P i) :
    copiedOverrides m f previous row (ds.map PlacedImage.span) = overridesAt m f P row ds := by
  induction ds generalizing row with
  | nil => rfl
  | cons d ds ih =>
      obtain ⟨hd, hds⟩ := List.forall_mem_cons.mp hpositions
      have hrange : d.stop = d.start + 1 + d.rows := rfl
      have hcount : d.stop + 1 - 1 - (d.start + 1) = d.rows := by
        omega
      have hspan : d.span = (d.start, d.stop + 1) := rfl
      rw [List.map_cons, copiedOverrides, hspan, overridesAt]
      dsimp only
      rw [hcount, ih hnumbered.2 hidentities.2 hds]
      congr 1
      apply List.map_congr_left
      intro k hk
      rw [List.mem_range] at hk
      have htoken := hnumbered.1 k hk
      have hidentity := hidentities.1 k hk
      dsimp only at htoken hidentity
      rw [htoken, hidentity, hd _ (by omega)]
      rfl

/-- What can be copied from a prompt whose images were placed. -/
theorem reuse_spec (tokens : List Token) (prepared : PreparedImages β) {tokens' : List Token}
    {prepared' : PreparedImages β} (reused' : ℕ)
    (h : Settled m tokens' prepared' ds) :
    ∃ stable k, reuse m tokens prepared (some (laidOut m tokens' prepared' reused' ds).saved) = (stable, k) ∧
      k ≤ ds.length ∧ (∀ d ∈ ds.take k, d.stop < stable) ∧ (∀ d ∈ ds.drop k, stable ≤ d.start) ∧
      stable ≤ tokens.length ∧ stable ≤ tokens'.length ∧
      (∀ i < stable, tokens.getD i 0 = tokens'.getD i 0) ∧
      (ds.take k).map PlacedImage.source = (images prepared).take k := by
  unfold reuse
  dsimp only [laidOut, assembled]
  split
  case isTrue hsame =>
    obtain ⟨-, -, -, -, hspans, hsources⟩ := hsame
    obtain ⟨-, hm, -, -⟩ := checkRequest_eq_ok h.valid.request
    rw [List.length_map] at hspans
    obtain ⟨hleft, hright, hcommon⟩ := commonPrefix_spec tokens tokens'
    generalize hequal : imagesEqual (prepared.sources.zip prepared.encoded.grids)
      (prepared'.sources.zip prepared'.encoded.grids) = equal
    generalize hstable : (if equal < (ds.map PlacedImage.span).length then
      min (commonPrefix tokens tokens') ((ds.map PlacedImage.span).getD equal (0, 0)).1
      else commonPrefix tokens tokens') = bound
    have hbound : bound ≤ commonPrefix tokens tokens' := by
      rw [← hstable]
      split_ifs
      · exact min_le_left _ _
      · exact le_rfl
    obtain ⟨hle, hlength, -, hbefore, hlater⟩ := wholeSpans_spec hm h.fits
    refine ⟨_, _, rfl, hlength, hbefore, hlater, by omega, by omega,
      fun i hi => hcommon i (by omega), ?_⟩
    generalize wholeSpans bound (ds.map PlacedImage.span) = found at hle hlength hbefore
    have hkept : found.2 ≤ equal := by
      by_contra hmore
      have hlt : equal < ds.length := by omega
      have hin : ds[equal] ∈ ds.take found.2 := by
        rw [List.mem_take_iff_getElem]
        exact ⟨equal, by omega, rfl⟩
      rw [if_pos (by rwa [List.length_map]), List.getD_eq_getElem _ _ (by rwa [List.length_map]),
        List.getElem_map] at hstable
      have hstart : bound ≤ ds[equal].start := hstable ▸ min_le_right _ _
      have hstop := hbefore _ hin
      have hrange : ds[equal].stop = ds[equal].start + 1 + ds[equal].rows := rfl
      omega
    calc (ds.take found.2).map PlacedImage.source = (images prepared').take found.2 := by
          rw [List.map_take, h.sources]
      _ = ((prepared'.sources.zip prepared'.encoded.grids).take found.2).map placedBy := by
          rw [images_eq (hspans.trans h.length), List.map_take]
      _ = ((prepared.sources.zip prepared.encoded.grids).take found.2).map placedBy :=
          (imagesEqual_spec _ _ (hequal ▸ hkept)).symm
      _ = (images prepared).take found.2 := by
          rw [images_eq hsources, List.map_take]
  case isFalse =>
    refine ⟨0, 0, rfl, Nat.zero_le _, ?_, fun d _ => Nat.zero_le _, Nat.zero_le _, Nat.zero_le _, ?_, rfl⟩
    · intro d hd
      exact absurd hd List.not_mem_nil
    · intro i hi
      exact absurd hi (Nat.not_lt_zero i)

/-- What is copied from a prompt whose images were placed is laid out. -/
theorem resumes_of_settled (tokens : List Token) (prepared : PreparedImages β) {tokens' : List Token}
    {prepared' : PreparedImages β} (reused' : ℕ)
    (h : Settled m tokens' prepared' ds) :
    ∃ stable k, reuse m tokens prepared (some (laidOut m tokens' prepared' reused' ds).saved) =
        (stable, (ds.take k).length) ∧ k = (ds.take k).length ∧
      Resumes m tokens prepared (ds.take k) stable
        (copied m tokens prepared (some (laidOut m tokens' prepared' reused' ds).saved)) := by
  obtain ⟨stable, k, hreuse, hk, hstop, hlater, hn, hn', hcommon, hsources⟩ :=
    reuse_spec tokens prepared reused' h
  have hlength : (ds.take k).length = k := by
    rw [List.length_take, min_eq_left hk]
  refine ⟨stable, k, by rw [hreuse, hlength], hlength.symm, ?_⟩
  have hsplit : ds.take k ++ ds.drop k = ds := List.take_append_drop k ds
  generalize hD : ds.take k = D at hlength hstop hsources hsplit ⊢
  unfold copied
  rw [hreuse]
  dsimp only
  split_ifs with hzero
  · have hnil : D = [] := by
      rw [List.eq_nil_iff_forall_not_mem]
      intro d hd
      exact absurd (hstop d hd) (by omega)
    rw [hnil, hzero]
    exact resumes_beginning m tokens prepared
  · have hmapped : ∀ i < stable, (laidOut m tokens' prepared' reused' ds).saved.mappedTokens.getD i 0 =
        (allDrawn m prepared.encoded.features (beginning tokens) D).tokens i := by
      intro i hi
      have hlate : inImage (ds.drop k) i = false :=
        inImage_of_le_start fun d hd => hi.le.trans (hlater d hd)
      dsimp only [laidOut, assembled]
      rw [getD_map_range _ _ (hi.trans_le hn'), ← hsplit, allDrawn_append,
        allDrawn_tokens_of_not_inImage hlate]
      exact allDrawn_tokens_congr rfl (hcommon i hi).symm
    have hpositions : ∀ i < stable,
        (laidOut m tokens' prepared' reused' ds).saved.positions.getD i (0, 0, 0) =
          layoutPositions 0 0 D i := by
      intro i hi
      dsimp only [laidOut, assembled]
      rw [getD_map_range _ _ (hi.trans_le hn'), ← hsplit]
      exact layoutPositions_append_of_le fun d hd => hi.le.trans (hlater d hd)
    have hspans : (laidOut m tokens' prepared' reused' ds).saved.spans.take k =
        D.map PlacedImage.span := by
      rw [← hD, List.map_take]
      rfl
    have hfits : Fits m tokens'.length (fun i => tokens'.getD i 0) 0 D :=
      (Fits.of_append (hsplit.symm ▸ h.fits)).1
    have hnumbered : Numbered
        (fun i => (laidOut m tokens' prepared' reused' ds).saved.mappedTokens.getD i 0) 0 D := by
      have hall : Numbered (allDrawn m prepared.encoded.features (beginning tokens) D).tokens 0 D :=
        numbered_allDrawn hfits
      apply hall.imp
      intro d hd j hj row hrow
      have hlt := hstop d hd
      have hrange : d.stop = d.start + 1 + d.rows := rfl
      rw [← hrow]
      exact hmapped _ (by omega)
    have hidentities : EachRow (fun d j row =>
        (laidOut m tokens' prepared' reused' ds).saved.rowIdentities.getD row 0 =
          multimodalRowCacheIdentity d.fingerprint (BitVec.ofNat 32 j)) 0 D :=
      hD ▸ EachRow.take k (eachRow_identities (m := m) (f := prepared'.encoded.features) [])
    have hoverrides : copiedOverrides m prepared.encoded.features
        (laidOut m tokens' prepared' reused' ds).saved 0
        ((laidOut m tokens' prepared' reused' ds).saved.spans.take k) =
          overridesAt m prepared.encoded.features (layoutPositions 0 0 D) 0 D := by
      rw [hspans]
      exact copiedOverrides_eq hnumbered hidentities fun d hd i hi => hpositions i (hi.trans (hstop d hd))
    rw [hoverrides, hspans]
    refine {
      fits := hfits.congr (fun d hd => (hstop d hd).trans_le hn) fun d hd i _ hi =>
        hcommon i (hi.trans_lt (hstop d hd))
      sources := by rw [hsources, hlength]
      even := fun d hd => h.even d (List.mem_of_mem_take (hD ▸ hd))
      limit := (hD ▸ totalRows_take_le k ds).trans h.limit
      stop_lt := hstop
      stable_le := hn
      mapped := ?_
      modality := rfl
      overrides := rfl
      spans := rfl
      embeddingRow := length_overridesAt _ _ _
      search := rfl
      pos := rfl
      current := ?_
      positions := ?_ }
    · funext i
      dsimp only
      split_ifs with hi
      · exact hmapped i hi
      · have hpast : inImage D i = false :=
          inImage_of_stop_le fun d hd => (hstop d hd).le.trans (not_lt.mp hi)
        have hraw : (allDrawn m prepared.encoded.features (beginning tokens) D).tokens i = tokens.getD i 0 :=
          allDrawn_tokens_of_not_inImage hpast
        exact hraw.symm
    · dsimp only
      rw [hpositions _ (by omega)]
      have hnext := layoutPositions_succ (c := 0) (i := stable - 1) (Nat.zero_le _) fun d hd =>
        Nat.le_sub_one_of_lt (hstop d hd)
      rw [Nat.sub_add_cancel (Nat.pos_of_ne_zero hzero)] at hnext
      exact hnext.symm
    · intro i hi
      dsimp only
      rw [if_pos hi]
      exact hpositions i hi

end Copied

/-! ## Saved mappings -/

/-- A mapping that an earlier call left, which had itself an earlier mapping or none. -/
inductive Saved (m : Markers) (β : Type) : VisionTokenMapping → Prop
  | first {tokens : List Token} {prepared : PreparedImages β} {r : Finalized β} :
      finalizeVisionTokens m tokens prepared none = .ok (some r) → Saved m β r.saved
  | next {previous : VisionTokenMapping} {tokens : List Token} {prepared : PreparedImages β}
      {r : Finalized β} : Saved m β previous →
      finalizeVisionTokens m tokens prepared (some previous) = .ok (some r) → Saved m β r.saved

/-- A saved mapping. -/
structure SavedMapping (m : Markers) (β : Type) where
  mapping : VisionTokenMapping
  saved : Saved m β mapping

section Runs

variable {tokens : List Token} {prepared : PreparedImages β}

theorem reuse_none (tokens : List Token) (prepared : PreparedImages β) :
    reuse m tokens prepared none = (0, ([] : List PlacedImage).length) := rfl

/-- A call that goes on from a beginning settles the prompt. -/
theorem settled_of_ok {previous : Option VisionTokenMapping} {stable : ℕ} {r : Finalized β}
    (hreuse : reuse m tokens prepared previous = (stable, ds.length))
    (hr : Resumes m tokens prepared ds stable (copied m tokens prepared previous))
    (h : finalizeVisionTokens m tokens prepared previous = .ok (some r)) :
    ∃ es, r = laidOut m tokens prepared stable es ∧ Settled m tokens prepared es := by
  obtain ⟨hvalid, es, hes, hfits, -, rfl⟩ := (finalizeVisionTokens_iff hreuse hr).mp h
  have hstop : lastStop 0 ds ≤ stable :=
    lastStop_le (Nat.zero_le _) fun d hd => (hr.stop_lt d hd).le
  refine ⟨ds ++ es, rfl, hvalid, hr.fits.append (hfits.mono hstop), ?_⟩
  rw [List.map_append, hr.sources, hes, List.take_append_drop]

theorem Saved.settled {mapping : VisionTokenMapping} (h : Saved m β mapping) :
    ∃ (tokens : List Token) (prepared : PreparedImages β) (reused : ℕ) (ds : List PlacedImage),
      mapping = (laidOut m tokens prepared reused ds).saved ∧ Settled m tokens prepared ds := by
  induction h with
  | first h =>
      obtain ⟨es, rfl, hes⟩ := settled_of_ok (reuse_none _ _) (resumes_beginning m _ _) h
      exact ⟨_, _, _, es, rfl, hes⟩
  | next _ h ih =>
      obtain ⟨tokens', prepared', reused', ds, rfl, hds⟩ := ih
      obtain ⟨stable, k, hreuse, -, hr⟩ := resumes_of_settled _ _ reused' hds
      obtain ⟨es, rfl, hes⟩ := settled_of_ok hreuse hr h
      exact ⟨_, _, _, es, rfl, hes⟩

end Runs

/-! ## Stray images -/

section Strays

variable {tokens : ℕ → Token} {stable total : ℕ} {all : List (Grid × BitVec 64)}

/-- An image seems to begin before `stable`, where none of the images `ds` does, and
another one stands after it or is still to be placed. -/
def Misses (m : Markers) (tokens : ℕ → Token) (stable total : ℕ) (ds : List PlacedImage) : Prop :=
  ∃ p < stable, m.startsAt tokens p = true ∧ (∀ d ∈ ds, p ≠ d.start) ∧
    (ds.length < total ∨ ∃ d ∈ ds, p < d.start)

/-- Where nothing is missed, what is placed after `stable` is placed as if from the start. -/
theorem placed_of_not_misses (hpad : m.imagePad ≠ m.visionStart) (hend : m.visionStart ≠ m.visionEnd)
    (hds : Fits m n tokens 0 ds) (hstop : ∀ d ∈ ds, d.stop < stable) (hes : Fits m n tokens stable es)
    (hclear : Clear m tokens stable es) (htotal : total = ds.length + es.length)
    (hmisses : ¬ Misses m tokens stable total ds) :
    Fits m n tokens 0 (ds ++ es) ∧ Clear m tokens 0 (ds ++ es) := by
  have hlast : lastStop 0 ds ≤ stable :=
    lastStop_le (Nat.zero_le _) fun d hd => (hstop d hd).le
  have hfits : Fits m n tokens 0 (ds ++ es) := hds.append (hes.mono hlast)
  refine ⟨hfits, (clear_iff_starts hpad hend hfits).mpr ?_⟩
  intro i _ hstart ⟨d, hd, hlt⟩
  by_cases hi : i < stable
  · by_contra hnone
    push Not at hnone
    refine hmisses ⟨i, hi, hstart, fun e he => hnone e (List.mem_append_left _ he), ?_⟩
    rcases List.mem_append.mp hd with hd | hd
    · exact Or.inr ⟨d, hd, hlt⟩
    · have hpos := List.length_pos_of_mem hd
      exact Or.inl (by omega)
  · have hin : d ∈ es := by
      rcases List.mem_append.mp hd with hd | hd
      · have hle := hstop d hd
        have hrange : d.stop = d.start + 1 + d.rows := rfl
        omega
      · exact hd
    obtain ⟨e, he, heq⟩ :=
      (clear_iff_starts hpad hend hes).mp hclear i (not_lt.mp hi) hstart ⟨d, hin, hlt⟩
    exact ⟨e, List.mem_append_right _ he, heq⟩

/-- Where nothing is missed, what is placed from the start is what was copied and what is
placed after `stable`. -/
theorem placed_append_of_not_misses (hpad : m.imagePad ≠ m.visionStart)
    (hend : m.visionStart ≠ m.visionEnd) {fs : List PlacedImage} (hds : Fits m n tokens 0 ds)
    (hstop : ∀ d ∈ ds, d.stop < stable) (hfs : Fits m n tokens 0 fs) (hclear : Clear m tokens 0 fs)
    (hsource : ds.map PlacedImage.source = (fs.map PlacedImage.source).take ds.length)
    (htotal : total = fs.length) (hmisses : ¬ Misses m tokens stable total ds) :
    ∃ es, fs = ds ++ es ∧ Fits m n tokens stable es ∧ Clear m tokens stable es := by
  have hlast : lastStop 0 ds ≤ stable :=
    lastStop_le (Nat.zero_le _) fun d hd => (hstop d hd).le
  have hdsclear : Clear m tokens 0 ds := by
    refine (clear_iff_starts hpad hend hds).mpr ?_
    intro i _ hstart ⟨d, hd, hlt⟩
    by_contra hnone
    push Not at hnone
    have hle := hstop d hd
    have hrange : d.stop = d.start + 1 + d.rows := rfl
    exact hmisses ⟨i, by omega, hstart, hnone, Or.inr ⟨d, hd, hlt⟩⟩
  obtain ⟨es, rfl⟩ := placed_unique hds hdsclear hfs hclear hsource
  have hrest := hfs.of_append.2
  have hlater : ∀ e ∈ es, stable ≤ e.start := by
    intro e he
    by_contra hlt
    have hle := hrest.le_start e he
    have hpos := List.length_pos_of_mem he
    rw [List.length_append] at htotal
    refine hmisses ⟨e.start, by omega, (hrest.stands e he).start, fun d hd heq => ?_, Or.inl (by omega)⟩
    have hbefore := hds.stop_le d hd
    have hrange : d.stop = d.start + 1 + d.rows := rfl
    omega
  refine ⟨es, rfl, ?_, hclear.of_append.2.mono hlast⟩
  cases es with
  | nil => trivial
  | cons e es => exact ⟨hlater e List.mem_cons_self, hrest.2⟩

/-- Where something is missed, the two placements differ. -/
theorem not_clear_of_misses (hpad : m.imagePad ≠ m.visionStart) (hend : m.visionStart ≠ m.visionEnd)
    (hes : Fits m n tokens stable es) (hfits : Fits m n tokens 0 (ds ++ es))
    (htotal : total = ds.length + es.length) (hmisses : Misses m tokens stable total ds) :
    ¬ Clear m tokens 0 (ds ++ es) := by
  intro hclear
  obtain ⟨p, hp, hstart, hnone, hmore⟩ := hmisses
  have hafter := hes.le_start
  have hbefore : ∃ d ∈ ds ++ es, p < d.start := by
    rcases hmore with hmore | ⟨d, hd, hlt⟩
    · have hpos : 0 < es.length := by omega
      obtain ⟨e, he⟩ := List.exists_mem_of_length_pos hpos
      exact ⟨e, List.mem_append_right _ he, hp.trans_le (hafter e he)⟩
    · exact ⟨d, List.mem_append_left _ hd, hlt⟩
  obtain ⟨e, he, heq⟩ :=
    (clear_iff_starts hpad hend hfits).mp hclear p (Nat.zero_le _) hstart hbefore
  rcases List.mem_append.mp he with he | he
  · exact hnone e he heq
  · have hle := hafter e he
    omega

/-- Places are determined by what stands there and where. -/
theorem eq_of_span_eq (hspan : ds.map PlacedImage.span = es.map PlacedImage.span)
    (hsource : ds.map PlacedImage.source = es.map PlacedImage.source) : ds = es := by
  induction ds generalizing es with
  | nil => exact (List.map_eq_nil_iff.mp hspan.symm).symm
  | cons d ds ih =>
      cases es with
      | nil => cases hspan
      | cons e es =>
          obtain ⟨hspan, hspans⟩ := List.cons.inj hspan
          obtain ⟨hsource, hsources⟩ := List.cons.inj hsource
          obtain ⟨start, grid, fingerprint⟩ := d
          obtain ⟨start', grid', fingerprint'⟩ := e
          obtain ⟨rfl, rfl⟩ := Prod.mk.inj hsource
          obtain ⟨rfl, -⟩ := Prod.mk.inj hspan
          rw [ih hspans hsources]

end Strays

/-! ## With an earlier mapping and without -/

/-- What a result is compared by. -/
def Finalized.view (r : Finalized β) :
    List Token × List Mrope × List (ℕ × ℕ) × List (Override β) × VisionTokenMapping :=
  (r.tokens, r.positions, r.tokenSpans, r.overrides, r.saved)

/-- What a call is compared by: whether it succeeds, and with what. -/
def outcome (run : Except String (Option (Finalized β))) :
    Option (Option (List Token × List Mrope × List (ℕ × ℕ) × List (Override β) × VisionTokenMapping)) :=
  run.toOption.map fun r => r.map Finalized.view

section Outcome

variable (m) (tokens : List Token) (prepared : PreparedImages β) (previous : VisionTokenMapping)

/-- An image seems to begin in what is copied from the earlier mapping, where none was
placed, and another one stands after it or is still to be placed. -/
def Stray : Prop :=
  let found := reuse m tokens prepared (some previous)
  let spans := previous.spans.take found.2
  ∃ p < found.1, m.startsAt (fun i => tokens.getD i 0) p = true ∧ (∀ span ∈ spans, p ≠ span.1) ∧
    (spans.length < prepared.encoded.grids.length ∨ ∃ span ∈ spans, p < span.1)

/-- Images can be placed one after the other from `s` on. -/
def Placeable (all : List (Grid × BitVec 64)) (s : ℕ) : Prop :=
  ∃ ds : List PlacedImage, ds.map PlacedImage.source = all ∧
    Fits m tokens.length (fun i => tokens.getD i 0) s ds ∧ Clear m (fun i => tokens.getD i 0) s ds

variable {m tokens prepared previous}

theorem finalizeVisionTokens_ne_none (h : prepared.encoded.grids ≠ []) (from' : Option VisionTokenMapping) :
    finalizeVisionTokens m tokens prepared from' ≠ .ok none := by
  intro hnone
  unfold finalizeVisionTokens at hnone
  rw [if_neg h] at hnone
  obtain ⟨_, _, hnone⟩ := Except.bind_eq_ok.mp hnone
  obtain ⟨_, _, hnone⟩ := Except.bind_eq_ok.mp hnone
  obtain ⟨_, _, hnone⟩ := Except.bind_eq_ok.mp hnone
  obtain ⟨_, _, hnone⟩ := Except.bind_eq_ok.mp hnone
  cases hnone

/-- Calls are compared by their results. -/
theorem outcome_eq_iff {a b : Except String (Option (Finalized β))} (ha : a ≠ .ok none)
    (hb : b ≠ .ok none) : outcome a = outcome b ↔
      ∀ x, (∃ r, a = .ok (some r) ∧ r.view = x) ↔ ∃ r, b = .ok (some r) ∧ r.view = x := by
  have hmem : ∀ {run : Except String (Option (Finalized β))} {x},
      outcome run = some (some x) ↔ ∃ r, run = .ok (some r) ∧ r.view = x := by
    intro run x
    constructor
    · intro h
      cases run with
      | error e => cases h
      | ok o =>
          cases o with
          | none => cases h
          | some r => exact ⟨r, rfl, Option.some.inj (Option.some.inj h)⟩
    · rintro ⟨r, rfl, rfl⟩
      rfl
  have hcases : ∀ {run : Except String (Option (Finalized β))}, run ≠ .ok none →
      outcome run = none ∨ ∃ x, outcome run = some (some x) := by
    intro run hrun
    cases run with
    | error e => exact Or.inl rfl
    | ok o =>
        cases o with
        | none => exact absurd rfl hrun
        | some r => exact Or.inr ⟨_, rfl⟩
  constructor
  · intro h x
    rw [← hmem, ← hmem, h]
  · intro h
    rcases hcases ha with hleft | ⟨x, hx⟩
    · rcases hcases hb with hright | ⟨y, hy⟩
      · rw [hleft, hright]
      · have hback := hmem.mpr ((h y).mpr (hmem.mp hy))
        rw [hleft] at hback
        cases hback
    · rw [hx, hmem.mpr ((h x).mp (hmem.mp hx))]

end Outcome

/-- The two calls, where the earlier mapping is laid out. -/
theorem outcome_eq_iff_of_settled (tokens : List Token) (prepared : PreparedImages β)
    {tokens' : List Token} {prepared' : PreparedImages β} (reused' : ℕ)
    (hds : Settled m tokens' prepared' ds) :
    outcome (finalizeVisionTokens m tokens prepared (some (laidOut m tokens' prepared' reused' ds).saved)) =
        outcome (finalizeVisionTokens m tokens prepared none) ↔
      (Stray m tokens prepared (laidOut m tokens' prepared' reused' ds).saved → Valid m prepared →
        ¬ Placeable m tokens (images prepared) 0 ∧
        ¬ Placeable m tokens
          ((images prepared).drop
            (reuse m tokens prepared (some (laidOut m tokens' prepared' reused' ds).saved)).2)
          (reuse m tokens prepared (some (laidOut m tokens' prepared' reused' ds).saved)).1) := by
  obtain ⟨stable, k, hreuse, hk, hr⟩ := resumes_of_settled tokens prepared reused' hds
  by_cases hactive : prepared.encoded.grids = []
  · have hnone : ∀ from', finalizeVisionTokens m tokens prepared from' = .ok none := by
      intro from'
      unfold finalizeVisionTokens
      rw [if_pos hactive]
      rfl
    rw [hnone, hnone]
    exact iff_of_true rfl fun _ hvalid => absurd hactive hvalid.active
  · rw [outcome_eq_iff (finalizeVisionTokens_ne_none hactive _) (finalizeVisionTokens_ne_none hactive _)]
    have hfull : ∀ {r}, finalizeVisionTokens m tokens prepared none = .ok (some r) ↔ _ := fun {r} =>
      finalizeVisionTokens_iff (reuse_none tokens prepared) (resumes_beginning m tokens prepared)
    have hincremental : ∀ {r}, finalizeVisionTokens m tokens prepared
        (some (laidOut m tokens' prepared' reused' ds).saved) = .ok (some r) ↔ _ := fun {r} =>
      finalizeVisionTokens_iff hreuse hr
    have hstray : Stray m tokens prepared (laidOut m tokens' prepared' reused' ds).saved ↔
        Misses m (fun i => tokens.getD i 0) stable prepared.encoded.grids.length (ds.take k) := by
      have hspans : (laidOut m tokens' prepared' reused' ds).saved.spans.take (ds.take k).length =
          (ds.take k).map PlacedImage.span := by
        rw [← hk, List.map_take]
        rfl
      unfold Stray Misses
      rw [hreuse]
      dsimp only
      simp only [hspans, List.length_map, List.forall_mem_map, PlacedImage.span]
      simp only [List.mem_map, exists_exists_and_eq_and, PlacedImage.span]
    rw [hstray, hreuse]
    dsimp only
    generalize ds.take k = copies at hr hreuse hincremental ⊢
    have hlength : ∀ {fs : List PlacedImage}, fs.map PlacedImage.source = images prepared →
        Valid m prepared → prepared.encoded.grids.length = fs.length := by
      intro fs hfs hvalid
      obtain ⟨-, -, -, hcount⟩ := checkRequest_eq_ok hvalid.request
      rw [← map_fst_images hcount, List.length_map, ← hfs, List.length_map]
    have hsources : ∀ {es : List PlacedImage},
        es.map PlacedImage.source = (images prepared).drop copies.length →
        (copies ++ es).map PlacedImage.source = images prepared := by
      intro es hes
      rw [List.map_append, hr.sources, hes, List.take_append_drop]
    constructor
    · intro h hmisses hvalid
      obtain ⟨-, hend, hpad, -⟩ := checkRequest_eq_ok hvalid.request
      -- the two placements differ, so their spans do
      have hdiffer : ∀ {fs es : List PlacedImage}, fs.map PlacedImage.source = images prepared →
          Clear m (fun i => tokens.getD i 0) 0 fs →
          es.map PlacedImage.source = (images prepared).drop copies.length →
          Fits m tokens.length (fun i => tokens.getD i 0) 0 fs →
          Fits m tokens.length (fun i => tokens.getD i 0) stable es →
          fs.map PlacedImage.span ≠ (copies ++ es).map PlacedImage.span := by
        intro fs es hfs hclear hes hfits hfits' hspan
        have heq := eq_of_span_eq hspan (hfs.trans (hsources hes).symm)
        subst heq
        exact not_clear_of_misses hpad hend hfits' hfits
          ((hlength hfs hvalid).trans List.length_append) hmisses hclear
      refine ⟨?_, ?_⟩
      · rintro ⟨fs, hfs, hfits, hclear⟩
        obtain ⟨r, hok, hview⟩ := (h _).mpr
          ⟨_, hfull.mpr ⟨hvalid, fs, hfs, hfits, hclear, rfl⟩, rfl⟩
        obtain ⟨-, es, hes, hfits', -, rfl⟩ := hincremental.mp hok
        exact hdiffer hfs hclear hes hfits hfits' (congrArg (fun x => x.2.2.1) hview).symm
      · rintro ⟨es, hes, hfits', hclear'⟩
        obtain ⟨r, hok, hview⟩ := (h _).mp
          ⟨_, hincremental.mpr ⟨hvalid, es, hes, hfits', hclear', rfl⟩, rfl⟩
        obtain ⟨-, fs, hfs, hfits, hclear, rfl⟩ := hfull.mp hok
        exact hdiffer hfs hclear hes hfits hfits' (congrArg (fun x => x.2.2.1) hview)
    · intro h x
      by_cases hmisses : Misses m (fun i => tokens.getD i 0) stable prepared.encoded.grids.length copies
      · constructor
        · rintro ⟨r, hok, -⟩
          obtain ⟨hvalid, es, hes, hfits', hclear', -⟩ := hincremental.mp hok
          exact absurd ⟨es, hes, hfits', hclear'⟩ (h hmisses hvalid).2
        · rintro ⟨r, hok, -⟩
          obtain ⟨hvalid, fs, hfs, hfits, hclear, -⟩ := hfull.mp hok
          exact absurd ⟨fs, hfs, hfits, hclear⟩ (h hmisses hvalid).1
      · constructor
        · rintro ⟨r, hok, rfl⟩
          obtain ⟨hvalid, es, hes, hfits', hclear', rfl⟩ := hincremental.mp hok
          obtain ⟨-, hend, hpad, -⟩ := checkRequest_eq_ok hvalid.request
          obtain ⟨hfits, hclear⟩ := placed_of_not_misses hpad hend hr.fits hr.stop_lt hfits' hclear'
            ((hlength (hsources hes) hvalid).trans List.length_append) hmisses
          exact ⟨_, hfull.mpr ⟨hvalid, copies ++ es, hsources hes, hfits, hclear, rfl⟩, rfl⟩
        · rintro ⟨r, hok, rfl⟩
          obtain ⟨hvalid, fs, hfs, hfits, hclear, rfl⟩ := hfull.mp hok
          obtain ⟨-, hend, hpad, -⟩ := checkRequest_eq_ok hvalid.request
          have hfs' : fs.map PlacedImage.source = images prepared := hfs
          obtain ⟨es, rfl, hfits', hclear'⟩ := placed_append_of_not_misses hpad hend hr.fits hr.stop_lt
            hfits hclear (hfs' ▸ hr.sources) (hlength hfs' hvalid) hmisses
          refine ⟨_, hincremental.mpr ⟨hvalid, es, ?_, hfits', hclear', rfl⟩, rfl⟩
          rw [← hfs', List.map_append, List.drop_left' (List.length_map _)]

/-- **With an earlier mapping the function does what it does without**, exactly when an
image that seems to begin in what is copied, where none was placed, leaves both without a
place for the images. -/
theorem incremental_eq_full_iff (m : Markers) (tokens : List Token) (prepared : PreparedImages β)
    (previous : SavedMapping m β) :
    outcome (finalizeVisionTokens m tokens prepared (some previous.mapping)) =
        outcome (finalizeVisionTokens m tokens prepared none) ↔
      (Stray m tokens prepared previous.mapping → Valid m prepared →
        ¬ Placeable m tokens (images prepared) 0 ∧
        ¬ Placeable m tokens
          ((images prepared).drop (reuse m tokens prepared (some previous.mapping)).2)
          (reuse m tokens prepared (some previous.mapping)).1) := by
  obtain ⟨mapping, hsaved⟩ := previous
  obtain ⟨tokens', prepared', reused', ds, rfl, hds⟩ := hsaved.settled
  exact outcome_eq_iff_of_settled tokens prepared reused' hds

/-! ## A literal marker before the image -/

namespace LiteralMarker

def markers : Markers where
  imagePad := 3
  visionStart := 1
  visionEnd := 2
  distinct _ _ _ := by decide

variable (source : VisionImageSource)

/-- One image of one row. -/
def request : PreparedImages Unit where
  encoded := { grids := [⟨1, 2, 2, 1⟩], features := ⟨1, [()], none⟩ }
  imageFingerprints := [source.fingerprint]
  sources := [source]
  identities _ := rfl

theorem valid_request : Valid markers (request source) where
  active := List.cons_ne_nil _ _
  request := rfl
  limit := by
    change 1 ≤ rowLimit
    decide
  rows := rfl
  even grid h := by
    rw [List.mem_singleton.mp h]
    exact ⟨rfl, rfl⟩

/-- The image, where its `vision_start` stands at `start`. -/
def placed (start : ℕ) : PlacedImage := ⟨start, ⟨1, 2, 2, 1⟩, source.fingerprint⟩

theorem stands_placed {n start : ℕ} {tokens : ℕ → Token} (hlt : start + 2 < n)
    (hstart : tokens start = 1) (hpad : tokens (start + 1) = 3) (hend : tokens (start + 2) = 2) :
    Stands markers n tokens (placed source start) where
  start := decide_eq_true ⟨hstart, hpad⟩
  rows j hj := by
    have hzero : j = 0 := Nat.lt_one_iff.mp hj
    rw [hzero]
    exact hpad
  stop_lt := hlt
  stop := hend

/-- The earlier prompt: a literal `vision_start`, a text token and the image. -/
def earlier : List Token := [1, 9, 1, 3, 2]

/-- The prompt: the image alone. -/
def later : List Token := [1, 3, 2]

theorem fits_earlier : Fits markers earlier.length (fun i => earlier.getD i 0) 0 [placed source 2] :=
  ⟨Nat.zero_le _, stands_placed source (by decide) rfl rfl rfl, trivial⟩

theorem settled_earlier : Settled markers earlier (request source) [placed source 2] where
  valid := valid_request source
  fits := fits_earlier source
  sources := rfl

/-- The mapping of the earlier prompt. -/
def mapping : SavedMapping markers Unit where
  mapping := (laidOut markers earlier (request source) 0 [placed source 2]).saved
  saved := by
    refine Saved.first ((finalizeVisionTokens_iff (reuse_none _ _) (resumes_beginning _ _ _)).mpr
      ⟨valid_request source, [placed source 2], rfl, fits_earlier source, ⟨?_, trivial⟩, rfl⟩)
    intro i _ hi
    change i < 2 at hi
    interval_cases i
    · rfl
    · rfl

/-- The common prefix ends after the first token, which begins the image of the prompt. -/
theorem reuse_mapping : reuse markers later (request source) (some (mapping source).mapping) = (1, 0) := by
  have hcommon : commonPrefix later earlier = 1 := by decide
  unfold reuse
  dsimp only [mapping, laidOut, assembled]
  rw [if_pos ⟨rfl, rfl, rfl, rfl, rfl, rfl⟩, hcommon]
  -- whether the images compare equal or not
  generalize imagesEqual _ _ = equal
  cases equal with
  | zero => rfl
  | succ equal => rfl

/-- With the mapping of the earlier prompt the image is not found where it stands. -/
theorem outcome_ne_of_source :
    outcome (finalizeVisionTokens markers later (request source) (some (mapping source).mapping)) ≠
      outcome (finalizeVisionTokens markers later (request source) none) := by
  intro heq
  have hstray : Stray markers later (request source) (mapping source).mapping := by
    unfold Stray
    rw [reuse_mapping]
    exact ⟨0, Nat.zero_lt_one, rfl, fun _ h => absurd h List.not_mem_nil, Or.inl Nat.zero_lt_one⟩
  refine ((outcome_eq_iff_of_settled later (request source) 0 (settled_earlier source)).mp heq hstray
    (valid_request source)).1 ?_
  exact ⟨[placed source 0], rfl, ⟨Nat.zero_le _, stands_placed source (by decide) rfl rfl rfl, trivial⟩,
    fun i _ hi => absurd hi (Nat.not_lt_zero i), trivial⟩

/-- **With the mapping of the earlier prompt** the function does not do what it does
without. -/
theorem incremental_ne_full : ¬ ∀ (m : Markers) (tokens : List Token) (prepared : PreparedImages Unit)
    (previous : SavedMapping m Unit),
    outcome (finalizeVisionTokens m tokens prepared (some previous.mapping)) =
      outcome (finalizeVisionTokens m tokens prepared none) := by
  intro h
  exact outcome_ne_of_source ⟨⟨"", ""⟩⟩ (h markers later _ (mapping _))

end LiteralMarker

end Qw3.Vision
