import Mathlib.Data.List.GetD
import Qw3.Vision.TokenMapping

/-!
# Where the images of a prompt stand

* `PlacedImage` — an image at its place; `Fits` — images that stand in a prompt one
  after the other; `Clear` — no image begins between them.
* `drawn` — what placing an image changes.
* `placeImages_iff` — the loop over the images succeeds exactly with the first places
  where they fit.
-/

namespace Qw3.Vision

/-- An image at its place: where its `vision_start` stands. -/
structure PlacedImage where
  start : ℕ
  grid : Grid
  fingerprint : BitVec 64

namespace PlacedImage

variable (d : PlacedImage)

def rows : ℕ := d.grid.rows.toNat

/-- Where its `vision_end` stands. -/
def stop : ℕ := d.start + 1 + d.rows

def span : ℕ × ℕ := (d.start, d.stop + 1)

def source : Grid × BitVec 64 := (d.grid, d.fingerprint)

end PlacedImage

variable {m : Markers} {n s : ℕ} {tokens : ℕ → Token} {d : PlacedImage} {ds es : List PlacedImage}

/-! ## Places -/

/-- An image stands at its place. -/
structure Stands (m : Markers) (n : ℕ) (tokens : ℕ → Token) (d : PlacedImage) : Prop where
  start : m.startsAt tokens d.start = true
  rows : ∀ j < d.rows, tokens (d.start + 1 + j) = m.imagePad
  stop_lt : d.stop < n
  stop : tokens d.stop = m.visionEnd

/-- Images that stand in a prompt from `s` on, one after the other. -/
def Fits (m : Markers) (n : ℕ) (tokens : ℕ → Token) : ℕ → List PlacedImage → Prop
  | _, [] => True
  | s, d :: ds => s ≤ d.start ∧ Stands m n tokens d ∧ Fits m n tokens d.stop ds

/-- No image begins between them. -/
def Clear (m : Markers) (tokens : ℕ → Token) : ℕ → List PlacedImage → Prop
  | _, [] => True
  | s, d :: ds => (∀ i, s ≤ i → i < d.start → m.startsAt tokens i = false) ∧ Clear m tokens d.stop ds

/-- The number of rows of images. -/
def totalRows (ds : List PlacedImage) : ℕ := (ds.map PlacedImage.rows).sum

/-- What stands depends on the tokens of the image. -/
theorem Stands.congr {tokens' : ℕ → Token} {n' : ℕ} (h : Stands m n tokens d) (hn : d.stop < n')
    (hsame : ∀ i, d.start ≤ i → i ≤ d.stop → tokens' i = tokens i) : Stands m n' tokens' d := by
  have hrange : d.start + 1 ≤ d.stop := Nat.le_add_right _ _
  refine ⟨?_, ?_, hn, ?_⟩
  · have hstart := h.start
    unfold Markers.startsAt at hstart ⊢
    rw [hsame _ le_rfl (by omega), hsame _ (by omega) hrange]
    exact hstart
  · intro j hj
    unfold PlacedImage.stop at hsame
    rw [hsame _ (by omega) (by omega)]
    exact h.rows j hj
  · rw [hsame _ (by omega) le_rfl]
    exact h.stop

/-- An image has rows, as its markers differ. -/
theorem Stands.rows_pos (h : Stands m n tokens d) (hend : m.imagePad ≠ m.visionEnd) : 0 < d.rows := by
  by_contra hzero
  have hrows : d.rows = 0 := by omega
  have hstart := h.start
  have hstop := h.stop
  unfold Markers.startsAt at hstart
  rw [decide_eq_true_eq] at hstart
  rw [PlacedImage.stop, hrows, Nat.add_zero, hstart.2] at hstop
  exact hend hstop

theorem Fits.congr {tokens' : ℕ → Token} {n' : ℕ} (h : Fits m n tokens s ds)
    (hstop : ∀ d ∈ ds, d.stop < n')
    (hsame : ∀ d ∈ ds, ∀ i, d.start ≤ i → i ≤ d.stop → tokens' i = tokens i) :
    Fits m n' tokens' s ds := by
  induction ds generalizing s with
  | nil => trivial
  | cons d ds ih =>
      obtain ⟨hs, hd, hrest⟩ := h
      rw [List.forall_mem_cons] at hstop hsame
      exact ⟨hs, hd.congr hstop.1 hsame.1, ih hrest hstop.2 hsame.2⟩

/-- Images begin at `s` or later, and each is followed by the next. -/
theorem Fits.le_start (h : Fits m n tokens s ds) : ∀ d ∈ ds, s ≤ d.start := by
  induction ds generalizing s with
  | nil => exact fun d hd => absurd hd List.not_mem_nil
  | cons d ds ih =>
      obtain ⟨hs, -, hrest⟩ := h
      rw [List.forall_mem_cons]
      refine ⟨hs, fun e he => ?_⟩
      have hle := ih hrest e he
      unfold PlacedImage.stop at hle
      omega

theorem Fits.stands (h : Fits m n tokens s ds) : ∀ d ∈ ds, Stands m n tokens d := by
  induction ds generalizing s with
  | nil => exact fun d hd => absurd hd List.not_mem_nil
  | cons d ds ih => exact List.forall_mem_cons.mpr ⟨h.2.1, ih h.2.2⟩

/-- Where the last image ends. -/
def lastStop : ℕ → List PlacedImage → ℕ
  | s, [] => s
  | _, d :: ds => lastStop d.stop ds

theorem Fits.stop_le (h : Fits m n tokens s ds) : ∀ d ∈ ds, d.stop ≤ lastStop s ds := by
  have hmono : ∀ {s : ℕ} {ds : List PlacedImage}, Fits m n tokens s ds → s ≤ lastStop s ds := by
    intro s ds h
    induction ds generalizing s with
    | nil => exact le_rfl
    | cons d ds ih =>
        obtain ⟨hs, -, hrest⟩ := h
        have hle := ih hrest
        change s ≤ lastStop d.stop ds
        unfold PlacedImage.stop at hle ⊢
        omega
  induction ds generalizing s with
  | nil => exact fun d hd => absurd hd List.not_mem_nil
  | cons d ds ih => exact List.forall_mem_cons.mpr ⟨hmono h.2.2, ih h.2.2⟩

theorem Fits.append (hds : Fits m n tokens s ds) (hes : Fits m n tokens (lastStop s ds) es) :
    Fits m n tokens s (ds ++ es) := by
  induction ds generalizing s with
  | nil => exact hes
  | cons d ds ih => exact ⟨hds.1, hds.2.1, ih hds.2.2 hes⟩

theorem Fits.of_append (h : Fits m n tokens s (ds ++ es)) :
    Fits m n tokens s ds ∧ Fits m n tokens (lastStop s ds) es := by
  induction ds generalizing s with
  | nil => exact ⟨trivial, h⟩
  | cons d ds ih =>
      obtain ⟨hs, hd, hrest⟩ := h
      exact ⟨⟨hs, hd, (ih hrest).1⟩, (ih hrest).2⟩

/-- The search may begin earlier. -/
theorem Fits.mono {s' : ℕ} (h : Fits m n tokens s ds) (hs : s' ≤ s) : Fits m n tokens s' ds := by
  cases ds with
  | nil => trivial
  | cons d ds => exact ⟨hs.trans h.1, h.2⟩

theorem lastStop_le {bound : ℕ} (hs : s ≤ bound) (h : ∀ d ∈ ds, d.stop ≤ bound) :
    lastStop s ds ≤ bound := by
  induction ds generalizing s with
  | nil => exact hs
  | cons d ds ih =>
      obtain ⟨hd, hds⟩ := List.forall_mem_cons.mp h
      exact ih hd hds

/-! ## Clear places -/

theorem Clear.of_append (h : Clear m tokens s (ds ++ es)) :
    Clear m tokens s ds ∧ Clear m tokens (lastStop s ds) es := by
  induction ds generalizing s with
  | nil => exact ⟨trivial, h⟩
  | cons d ds ih => exact ⟨⟨h.1, (ih h.2).1⟩, (ih h.2).2⟩

theorem Clear.mono {s' : ℕ} (h : Clear m tokens s ds) (hs : s ≤ s') : Clear m tokens s' ds := by
  cases ds with
  | nil => trivial
  | cons d ds => exact ⟨fun i hi => h.1 i (hs.trans hi), h.2⟩

/-- An image does not begin inside another one. -/
theorem Stands.not_startsAt (h : Stands m n tokens d) (hpad : m.imagePad ≠ m.visionStart)
    (hend : m.visionStart ≠ m.visionEnd) {i : ℕ} (hi : d.start < i) (hle : i ≤ d.stop) :
    m.startsAt tokens i = false := by
  have hrange : d.stop = d.start + 1 + d.rows := rfl
  unfold Markers.startsAt
  apply decide_eq_false
  rintro ⟨hstart, -⟩
  rcases Nat.eq_or_lt_of_le hle with rfl | hlt
  · exact hend (hstart.symm.trans h.stop)
  · have hrow := h.rows (i - (d.start + 1)) (by omega)
    rw [Nat.add_sub_cancel' hi] at hrow
    exact hpad (hrow.symm.trans hstart)

/-- Places are clear where no image begins before one of them but at another. -/
theorem clear_iff_starts (hpad : m.imagePad ≠ m.visionStart) (hend : m.visionStart ≠ m.visionEnd)
    (hfits : Fits m n tokens s ds) :
    Clear m tokens s ds ↔ ∀ i, s ≤ i → m.startsAt tokens i = true → (∃ d ∈ ds, i < d.start) →
      ∃ d ∈ ds, i = d.start := by
  induction ds generalizing s with
  | nil =>
      constructor
      · rintro - i - - ⟨d, hd, -⟩
        exact absurd hd List.not_mem_nil
      · intro _
        trivial
  | cons d ds ih =>
      obtain ⟨hs, hd, hrest⟩ := hfits
      have hafter := hrest.le_start
      have hrange : d.stop = d.start + 1 + d.rows := rfl
      constructor
      · rintro ⟨hclear, hclears⟩ i hi hstart ⟨e, he, hlt⟩
        rcases Nat.lt_trichotomy i d.start with hbefore | rfl | hpast
        · rw [hclear i hi hbefore] at hstart
          exact absurd hstart (by decide)
        · exact ⟨d, List.mem_cons_self, rfl⟩
        · by_cases hin : i ≤ d.stop
          · rw [hd.not_startsAt hpad hend hpast hin] at hstart
            exact absurd hstart (by decide)
          · rcases List.mem_cons.mp he with rfl | he
            · omega
            · obtain ⟨e', he', heq⟩ := (ih hrest).mp hclears i (by omega) hstart ⟨e, he, hlt⟩
              exact ⟨e', List.mem_cons_of_mem _ he', heq⟩
      · intro h
        refine ⟨fun i hi hlt => ?_, (ih hrest).mpr fun i hi hstart hbefore => ?_⟩
        · rw [Bool.eq_false_iff]
          intro hstart
          obtain ⟨e, he, heq⟩ := h i hi hstart ⟨d, List.mem_cons_self, hlt⟩
          rcases List.mem_cons.mp he with rfl | he
          · omega
          · have hle := hafter e he
            omega
        · obtain ⟨e, he, hlt⟩ := hbefore
          obtain ⟨e', he', heq⟩ := h i (by omega) hstart ⟨e, List.mem_cons_of_mem _ he, hlt⟩
          rcases List.mem_cons.mp he' with rfl | he'
          · omega
          · exact ⟨e', he', heq⟩

/-- Clear places are determined by the images that stand there. -/
theorem placed_unique (hfits : Fits m n tokens s ds) (hclear : Clear m tokens s ds)
    (hfits' : Fits m n tokens s es) (hclear' : Clear m tokens s es)
    (hsource : ds.map PlacedImage.source = (es.map PlacedImage.source).take ds.length) :
    ∃ rest, es = ds ++ rest := by
  induction ds generalizing s es with
  | nil => exact ⟨es, rfl⟩
  | cons d ds ih =>
      cases es with
      | nil => cases hsource
      | cons e es =>
          rw [List.map_cons, List.map_cons, List.length_cons, List.take_succ_cons] at hsource
          obtain ⟨hfirst, hsources⟩ := List.cons.inj hsource
          obtain ⟨hs, hd, hrest⟩ := hfits
          obtain ⟨hs', he, hrest'⟩ := hfits'
          have hstart : d.start = e.start := by
            rcases Nat.lt_trichotomy d.start e.start with hlt | heq | hlt
            · exact absurd hd.start (by rw [hclear'.1 _ hs hlt]; decide)
            · exact heq
            · exact absurd he.start (by rw [hclear.1 _ hs' hlt]; decide)
          have heq : d = e := by
            obtain ⟨start, grid, fingerprint⟩ := d
            obtain ⟨start', grid', fingerprint'⟩ := e
            obtain ⟨rfl, rfl⟩ := Prod.mk.inj hfirst
            dsimp only at hstart
            rw [hstart]
          subst heq
          obtain ⟨rest, hes⟩ := ih hrest hclear.2 hrest' hclear'.2 hsources
          exact ⟨rest, by rw [hes, List.cons_append]⟩

/-! ## The scans -/

/-- A scan stops at the first place where it may. -/
theorem scanUntil_spec (stop : ℕ → Bool) {fuel i bound : ℕ} (hfuel : bound ≤ i + fuel)
    (hstop : ∀ j, bound ≤ j → stop j = true) :
    i ≤ scanUntil stop fuel i ∧ stop (scanUntil stop fuel i) = true ∧
      ∀ j, i ≤ j → j < scanUntil stop fuel i → stop j = false := by
  induction fuel generalizing i with
  | zero =>
      refine ⟨le_rfl, hstop i hfuel, ?_⟩
      intro j hle hlt
      exact absurd hlt (not_lt.mpr hle)
  | succ fuel ih =>
      unfold scanUntil
      split_ifs with hi
      · refine ⟨le_rfl, hi, ?_⟩
        intro j hle hlt
        exact absurd hlt (not_lt.mpr hle)
      · obtain ⟨hle, hat, hbefore⟩ := ih (i := i + 1) (by omega)
        refine ⟨by omega, hat, fun j hj hlt => ?_⟩
        rcases Nat.eq_or_lt_of_le hj with rfl | hj
        · exact Bool.eq_false_iff.mpr hi
        · exact hbefore j hj hlt

/-- A scan stops where it may first. -/
theorem scanUntil_eq (stop : ℕ → Bool) {fuel i bound j : ℕ} (hfuel : bound ≤ i + fuel)
    (hstop : ∀ j, bound ≤ j → stop j = true) (hle : i ≤ j) (hat : stop j = true)
    (hbefore : ∀ k, i ≤ k → k < j → stop k = false) : scanUntil stop fuel i = j := by
  obtain ⟨hle', hat', hbefore'⟩ := scanUntil_spec stop hfuel hstop
  apply le_antisymm
  · by_contra hlt
    rw [hbefore' j hle (not_le.mp hlt)] at hat
    exact absurd hat (by decide)
  · by_contra hlt
    rw [hbefore _ hle' (not_le.mp hlt)] at hat'
    exact absurd hat' (by decide)

/-! ## The loop over the images -/

section Loop

variable {β : Type} {f : Features β} {st st' : Placing β} {fingerprint : BitVec 64}

/-- What the loop over the rows of an image changes. -/
def rowsDrawn (m : Markers) (f : Features β) (fingerprint : BitVec 64) (begin' count j : ℕ)
    (st : Placing β) : Placing β where
  tokens i := if begin' + j ≤ i ∧ i < begin' + j + count then
      virtualId (st.embeddingRow + (i - (begin' + j)))
    else st.tokens i
  modality i := decide (begin' + j ≤ i ∧ i < begin' + j + count) || st.modality i
  overrides := st.overrides ++ (List.range count).map fun k =>
    freshOverride m f fingerprint (st.embeddingRow + k) (j + k)
  spans := st.spans
  embeddingRow := st.embeddingRow + count
  search := st.search

/-- What placing an image changes. -/
def drawn (m : Markers) (f : Features β) (st : Placing β) (d : PlacedImage) : Placing β :=
  rowsDrawn m f d.fingerprint (d.start + 1) d.rows 0
    { st with spans := st.spans ++ [d.span], search := d.stop }

theorem rowsDrawn_zero (begin' j : ℕ) (st : Placing β) :
    rowsDrawn m f fingerprint begin' 0 j st = st := by
  ext1
  · funext i
    change (if begin' + j ≤ i ∧ i < begin' + j + 0 then _ else st.tokens i) = _
    rw [if_neg (by omega)]
  · funext i
    change (decide (begin' + j ≤ i ∧ i < begin' + j + 0) || st.modality i) = _
    rw [decide_eq_false (by omega), Bool.false_or]
  · simp [rowsDrawn]
  · rfl
  · rfl
  · rfl

/-- One row, and then the others. -/
theorem rowsDrawn_succ (begin' count j : ℕ) (st : Placing β) :
    rowsDrawn m f fingerprint begin' (count + 1) j st =
      rowsDrawn m f fingerprint begin' count (j + 1) {
        st with
        tokens := Function.update st.tokens (begin' + j) (virtualId st.embeddingRow)
        modality := Function.update st.modality (begin' + j) true
        overrides := st.overrides ++ [freshOverride m f fingerprint st.embeddingRow j]
        embeddingRow := st.embeddingRow + 1 } := by
  unfold rowsDrawn
  ext1
  · funext i
    dsimp only
    rcases eq_or_ne i (begin' + j) with rfl | hne
    · rw [if_pos (by omega), if_neg (by omega), Function.update_self, Nat.sub_self, Nat.add_zero]
    · rw [Function.update_of_ne hne]
      by_cases hin : begin' + j ≤ i ∧ i < begin' + j + (count + 1)
      · rw [if_pos hin, if_pos (by omega)]
        congr 1
        omega
      · rw [if_neg hin, if_neg (by omega)]
  · funext i
    dsimp only
    rcases eq_or_ne i (begin' + j) with rfl | hne
    · rw [Function.update_self, Bool.or_true, decide_eq_true (by omega), Bool.true_or]
    · rw [Function.update_of_ne hne]
      congr 1
      rw [decide_eq_decide]
      omega
  · dsimp only
    rw [List.range_succ_eq_map, List.map_cons, List.map_map, List.append_assoc]
    congr 1
    rw [List.singleton_append, Nat.add_zero, Nat.add_zero]
    congr 1
    apply List.map_congr_left
    intro k _
    rw [Function.comp_apply, Nat.succ_eq_add_one]
    congr 1
    · omega
    · omega
  · rfl
  · dsimp only
    omega
  · rfl

theorem placeRows_eq (begin' count j : ℕ) (st : Placing β) :
    placeRows m f fingerprint begin' count j st =
      if count = 0 ∨ st.embeddingRow + count ≤ rowLimit then
        .ok (rowsDrawn m f fingerprint begin' count j st)
      else .error "too many visual embedding rows" := by
  induction count generalizing j st with
  | zero =>
      rw [if_pos (Or.inl rfl), rowsDrawn_zero]
      rfl
  | succ count ih =>
      unfold placeRows
      by_cases hlimit : st.embeddingRow ≥ rowLimit
      · rw [if_pos hlimit, if_neg (by omega)]
      · rw [rowsDrawn_succ, if_neg hlimit, ih]
        dsimp only
        by_cases hfits : st.embeddingRow + (count + 1) ≤ rowLimit
        · rw [if_pos (by omega), if_pos (Or.inr hfits)]
        · rw [if_neg (by omega), if_neg (by omega)]

/-- An image is placed where it stands first. -/
theorem placeImage_ok (hm : m.imagePad ≠ m.visionEnd) (hs : st.search ≤ d.start)
    (hclear : ∀ i, st.search ≤ i → i < d.start → m.startsAt st.tokens i = false)
    (hd : Stands m n st.tokens d) (hlimit : st.embeddingRow + d.rows ≤ rowLimit) :
    placeImage m f n d.grid d.fingerprint st = .ok (drawn m f st d) := by
  have hstop := hd.stop_lt
  have hrange : d.start + 1 ≤ d.stop := Nat.le_add_right _ _
  have hbegin : scanUntil (fun i => ¬ (i + 1 < n ∧ ¬ m.startsAt st.tokens i)) n st.search =
      d.start := by
    refine scanUntil_eq _ (Nat.le_add_left n _) ?_ hs ?_ ?_
    · intro j hj
      exact decide_eq_true fun h => absurd h.1 (by omega)
    · exact decide_eq_true fun h => h.2 hd.start
    · intro k hk hlt
      apply decide_eq_false
      rw [not_not, hclear k hk hlt]
      exact ⟨by omega, by decide⟩
  have hend : scanUntil (fun i => ¬ (i < n ∧ st.tokens i = m.imagePad)) n (d.start + 1) = d.stop := by
    refine scanUntil_eq _ (Nat.le_add_left n _) ?_ hrange ?_ ?_
    · intro j hj
      exact decide_eq_true fun h => absurd h.1 (by omega)
    · exact decide_eq_true fun h => hm (h.2.symm.trans hd.stop)
    · intro k hk hlt
      apply decide_eq_false
      rw [not_not]
      refine ⟨by omega, ?_⟩
      unfold PlacedImage.stop at hlt
      have hrow := hd.rows (k - (d.start + 1)) (by omega)
      rwa [Nat.add_sub_cancel' hk] at hrow
  unfold placeImage
  rw [hbegin]
  dsimp only
  rw [hend, if_neg (by omega), if_neg, if_neg, placeRows_eq, if_pos]
  · have hcount : d.stop - (d.start + 1) = d.rows := by
      unfold PlacedImage.stop
      omega
    rw [hcount]
    rfl
  · refine Or.inr ?_
    unfold PlacedImage.stop
    dsimp only
    omega
  · rintro (h | h)
    · omega
    · exact h hd.stop
  · rw [not_not]
    unfold PlacedImage.stop PlacedImage.rows
    omega

/-- Where an image is placed, it stands first. -/
theorem placeImage_spec {grid : Grid} (h : placeImage m f n grid fingerprint st = .ok st') :
    ∃ d : PlacedImage, d.source = (grid, fingerprint) ∧ st.search ≤ d.start ∧
      (∀ i, st.search ≤ i → i < d.start → m.startsAt st.tokens i = false) ∧
      Stands m n st.tokens d ∧ (d.rows = 0 ∨ st.embeddingRow + d.rows ≤ rowLimit) ∧
      st' = drawn m f st d := by
  unfold placeImage at h
  obtain ⟨hle, hat, hbefore⟩ := scanUntil_spec
    (fun i => ¬ (i + 1 < n ∧ ¬ m.startsAt st.tokens i))
    (Nat.le_add_left n st.search) fun j hj => decide_eq_true fun h => absurd h.1 (by omega)
  generalize scanUntil (fun i => ¬ (i + 1 < n ∧ ¬ m.startsAt st.tokens i)) n st.search = start at *
  dsimp only at h
  obtain ⟨hle', hat', hbefore'⟩ := scanUntil_spec
    (fun i => ¬ (i < n ∧ st.tokens i = m.imagePad))
    (Nat.le_add_left n (start + 1)) fun j hj => decide_eq_true fun h => absurd h.1 (by omega)
  generalize scanUntil (fun i => ¬ (i < n ∧ st.tokens i = m.imagePad)) n (start + 1) = stop at *
  split_ifs at h with hfew hrows hend
  rw [placeRows_eq] at h
  split_ifs at h with hlimit
  have hcount : grid.rows.toNat = stop - (start + 1) := (not_not.mp hrows).symm
  have hstop : start + 1 + grid.rows.toNat = stop := by omega
  rw [not_or, not_le, not_not] at hend
  refine ⟨⟨start, grid, fingerprint⟩, rfl, hle, ?_, ⟨?_, ?_, ?_, ?_⟩, ?_, ?_⟩
  · intro i hi hlt
    have hgo := of_decide_eq_false (hbefore i hi hlt)
    rw [not_not] at hgo
    exact Bool.eq_false_iff.mpr hgo.2
  · by_contra hnot
    exact of_decide_eq_true hat ⟨by omega, hnot⟩
  · intro j hj
    have hgo := of_decide_eq_false (hbefore' (start + 1 + j) (by omega) ?_)
    · rw [not_not] at hgo
      exact hgo.2
    · change j < grid.rows.toNat at hj
      omega
  · change start + 1 + grid.rows.toNat < n
    omega
  · change st.tokens (start + 1 + grid.rows.toNat) = m.visionEnd
    rw [hstop]
    exact hend.2
  · change grid.rows.toNat = 0 ∨ st.embeddingRow + grid.rows.toNat ≤ rowLimit
    rw [hcount]
    exact hlimit
  · rw [← Except.ok.inj h, ← hcount]
    unfold drawn PlacedImage.span PlacedImage.stop PlacedImage.rows
    dsimp only
    rw [hstop]

theorem drawn_tokens_of_stop_le {i : ℕ} (h : d.stop ≤ i) :
    (drawn m f st d).tokens i = st.tokens i := by
  unfold PlacedImage.stop at h
  apply if_neg
  omega

/-- Everything that is placed. -/
def allDrawn (m : Markers) (f : Features β) (st : Placing β) (ds : List PlacedImage) : Placing β :=
  ds.foldl (drawn m f) st

@[simp] theorem allDrawn_nil : allDrawn m f st [] = st := rfl

@[simp] theorem allDrawn_cons : allDrawn m f st (d :: ds) = allDrawn m f (drawn m f st d) ds := rfl

theorem allDrawn_append : allDrawn m f st (ds ++ es) = allDrawn m f (allDrawn m f st ds) es :=
  List.foldl_append

/-- What stands from `s` on depends on the tokens from `s` on. -/
theorem fits_clear_congr {tokens' : ℕ → Token} (hsame : ∀ i, s ≤ i → tokens' i = tokens i) :
    Fits m n tokens' s ds ∧ Clear m tokens' s ds ↔ Fits m n tokens s ds ∧ Clear m tokens s ds := by
  have hone : ∀ {tokens tokens' : ℕ → Token} {s : ℕ} {ds : List PlacedImage},
      (∀ i, s ≤ i → tokens' i = tokens i) → Fits m n tokens s ds ∧ Clear m tokens s ds →
        Fits m n tokens' s ds ∧ Clear m tokens' s ds := by
    intro tokens tokens' s ds hsame h
    induction ds generalizing s with
    | nil => exact ⟨trivial, trivial⟩
    | cons d ds ih =>
        obtain ⟨⟨hs, hd, hrest⟩, hclear, hclears⟩ := h
        have hstop : s ≤ d.stop := by
          unfold PlacedImage.stop
          omega
        obtain ⟨hfits, hclears⟩ := ih (fun i hi => hsame i (hstop.trans hi)) ⟨hrest, hclears⟩
        refine ⟨⟨hs, hd.congr hd.stop_lt fun i hi _ => hsame i (hs.trans hi), hfits⟩, ?_, hclears⟩
        intro i hi hlt
        unfold Markers.startsAt at hclear ⊢
        rw [hsame i hi, hsame (i + 1) (by omega)]
        exact hclear i hi hlt
  exact ⟨hone fun i hi => (hsame i hi).symm, hone hsame⟩

/-- **The loop over the images** succeeds exactly with the first places where they
stand, if the rows fit. -/
theorem placeImages_iff (hm : m.imagePad ≠ m.visionEnd) (l : List (Grid × BitVec 64)) :
    placeImages m f n l st = .ok st' ↔
      ∃ ds : List PlacedImage, ds.map PlacedImage.source = l ∧ Fits m n st.tokens st.search ds ∧
        Clear m st.tokens st.search ds ∧ (ds = [] ∨ st.embeddingRow + totalRows ds ≤ rowLimit) ∧
        st' = allDrawn m f st ds := by
  induction l generalizing st with
  | nil =>
      constructor
      · intro h
        exact ⟨[], rfl, trivial, trivial, Or.inl rfl, (Except.ok.inj h).symm⟩
      · rintro ⟨ds, hds, -, -, -, rfl⟩
        rw [List.map_eq_nil_iff] at hds
        rw [hds]
        rfl
  | cons image rest ih =>
      obtain ⟨grid, fingerprint⟩ := image
      unfold placeImages
      have hafter : ∀ d : PlacedImage, ∀ es, Fits m n (drawn m f st d).tokens d.stop es ∧
          Clear m (drawn m f st d).tokens d.stop es ↔
            Fits m n st.tokens d.stop es ∧ Clear m st.tokens d.stop es := fun d es =>
        fits_clear_congr fun i hi => drawn_tokens_of_stop_le hi
      constructor
      · intro h
        cases hone : placeImage m f n grid fingerprint st with
        | error e =>
            rw [hone] at h
            cases h
        | ok st₁ =>
            rw [hone] at h
            obtain ⟨d, hsource, hs, hclear, hd, hlimit, rfl⟩ := placeImage_spec hone
            obtain ⟨ds, hds, hfits, hclears, hrows, rfl⟩ := ih.mp h
            obtain ⟨hfits, hclears⟩ := (hafter d ds).mp ⟨hfits, hclears⟩
            refine ⟨d :: ds, ?_, ⟨hs, hd, hfits⟩, ⟨hclear, hclears⟩, Or.inr ?_, rfl⟩
            · rw [List.map_cons, hsource, hds]
            · have hpos := hd.rows_pos hm
              have htotal : totalRows (d :: ds) = d.rows + totalRows ds := List.sum_cons
              have hrow : (drawn m f st d).embeddingRow = st.embeddingRow + d.rows := rfl
              rw [hrow] at hrows
              rw [htotal]
              rcases hrows with rfl | hrows
              · have hzero : totalRows [] = 0 := rfl
                omega
              · omega
      · rintro ⟨ds, hds, hfits, hclears, hrows, rfl⟩
        cases ds with
        | nil => cases hds
        | cons d ds =>
            obtain ⟨hsource, hsources⟩ := List.cons.inj hds
            obtain ⟨rfl, rfl⟩ := Prod.mk.inj hsource
            obtain ⟨hs, hd, hfits⟩ := hfits
            obtain ⟨hclear, hclears⟩ := hclears
            have htotal : totalRows (d :: ds) = d.rows + totalRows ds := List.sum_cons
            have hle := hrows.resolve_left (List.cons_ne_nil _ _)
            rw [htotal] at hle
            rw [placeImage_ok hm hs hclear hd (by omega)]
            obtain ⟨hfits, hclears⟩ := (hafter d ds).mpr ⟨hfits, hclears⟩
            refine ih.mpr ⟨ds, hsources, hfits, hclears, Or.inr ?_, rfl⟩
            have hrow : (drawn m f st d).embeddingRow = st.embeddingRow + d.rows := rfl
            rw [hrow]
            omega

end Loop

end Qw3.Vision
