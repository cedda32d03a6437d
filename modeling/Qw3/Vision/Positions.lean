import Qw3.Vision.Placement

/-!
# The positions of a prompt with images

The loop goes over the tokens once.  A stretch of text counts up from `current`; an image
is laid over its grid from there, and moves `current` by its grid, not by its tokens.

* `layoutPositions` — the position of each token, from where the images stand.
* `overridesAt` — the rows of the images, with the positions of their tokens.
* `assignPositions_ok`, `assignPositions_error` — the loop over the positions computes
  them, and fails on a grid that is not even.
-/

namespace Qw3.Vision

/-- A position of text. -/
def textPosition (current : BitVec 32) (distance : ℕ) : Mrope :=
  let c := current + BitVec.ofNat 32 distance
  (c, c, c)

theorem add_one_add_ofNat (c : BitVec 32) (k : ℕ) :
    c + 1 + BitVec.ofNat 32 k = c + BitVec.ofNat 32 (k + 1) := by
  rw [BitVec.add_assoc, BitVec.add_comm 1, BitVec.ofNat_add]
  rfl

theorem add_ofNat_sub (c : BitVec 32) {i j k : ℕ} (hij : i ≤ j) (hjk : j ≤ k) :
    c + BitVec.ofNat 32 (j - i) + BitVec.ofNat 32 (k - j) = c + BitVec.ofNat 32 (k - i) := by
  rw [BitVec.add_assoc, ← BitVec.ofNat_add]
  congr 2
  omega

theorem textPosition_zero (c : BitVec 32) : textPosition c 0 = (c, c, c) := by
  have hzero : c + BitVec.ofNat 32 0 = c := BitVec.add_zero c
  unfold textPosition
  rw [hzero]

theorem textPosition_succ (c : BitVec 32) (k : ℕ) : textPosition (c + 1) k = textPosition c (k + 1) := by
  unfold textPosition
  rw [add_one_add_ofNat]

/-- The positions from `pos` on, where the counter is at `current` there. -/
def layoutPositions (current : BitVec 32) (pos : ℕ) : List PlacedImage → ℕ → Mrope
  | [], i => textPosition current (i - pos)
  | d :: ds, i =>
      let first := current + BitVec.ofNat 32 (d.start + 1 - pos)
      if i ≤ d.start then textPosition current (i - pos)
      else if i < d.stop then mropeAt d.grid first (i - (d.start + 1))
      else layoutPositions (first + advanceOf d.grid) d.stop ds i

/-- A token belongs to an image. -/
def inImage (ds : List PlacedImage) (i : ℕ) : Bool := ds.any fun d => d.start < i ∧ i < d.stop

/-- What holds of each row of images: of the image, of the row in the image and of the
row among all rows, which begin at `row`. -/
def EachRow (P : PlacedImage → ℕ → ℕ → Prop) : ℕ → List PlacedImage → Prop
  | _, [] => True
  | row, d :: ds => (∀ k < d.rows, P d k (row + k)) ∧ EachRow P (row + d.rows) ds

/-- The rows have their virtual IDs. -/
def Numbered (tokens : ℕ → Token) : ℕ → List PlacedImage → Prop :=
  EachRow fun d k row => tokens (d.start + 1 + k) = virtualId row

/-- A grid can be merged two by two. -/
def EvenGrid (grid : Grid) : Prop := grid.height % 2 = 0 ∧ grid.width % 2 = 0

variable {β : Type} {m : Markers} {f : Features β} {n s : ℕ} {tokens tokens' : ℕ → Token}
  {modality : ℕ → Bool} {d : PlacedImage} {ds es : List PlacedImage} {st : Positioning β}

/-- The rows of the images from row `row` on, at their positions. -/
def overridesAt (m : Markers) (f : Features β) (positions : ℕ → Mrope) :
    ℕ → List PlacedImage → List (Override β)
  | _, [] => []
  | row, d :: ds => ((List.range d.rows).map fun k =>
      { freshOverride m f d.fingerprint (row + k) k with position := positions (d.start + 1 + k) }) ++
      overridesAt m f positions (row + d.rows) ds

theorem length_overridesAt (positions : ℕ → Mrope) (row : ℕ) (ds : List PlacedImage) :
    (overridesAt m f positions row ds).length = totalRows ds := by
  induction ds generalizing row with
  | nil => rfl
  | cons d ds ih =>
      rw [overridesAt, List.length_append, List.length_map, List.length_range, ih]
      exact List.sum_cons.symm

theorem overridesAt_congr {P Q : ℕ → Mrope} (row : ℕ)
    (h : ∀ d ∈ ds, ∀ i, d.start < i → i < d.stop → P i = Q i) :
    overridesAt m f P row ds = overridesAt m f Q row ds := by
  induction ds generalizing row with
  | nil => rfl
  | cons d ds ih =>
      obtain ⟨hd, hds⟩ := List.forall_mem_cons.mp h
      rw [overridesAt, overridesAt, ih _ hds]
      congr 1
      apply List.map_congr_left
      intro k hk
      rw [List.mem_range] at hk
      unfold PlacedImage.stop at hd
      rw [hd _ (by omega) (by omega)]

theorem overridesAt_append (P : ℕ → Mrope) (row : ℕ) :
    overridesAt m f P row (ds ++ es) =
      overridesAt m f P row ds ++ overridesAt m f P (row + totalRows ds) es := by
  induction ds generalizing row with
  | nil => rfl
  | cons d ds ih =>
      have htotal : totalRows (d :: ds) = d.rows + totalRows ds := List.sum_cons
      rw [List.cons_append, overridesAt, overridesAt, ih, List.append_assoc, htotal, Nat.add_assoc]

theorem EachRow.take {P : PlacedImage → ℕ → ℕ → Prop} {row : ℕ} (k : ℕ) (h : EachRow P row ds) :
    EachRow P row (ds.take k) := by
  induction ds generalizing row k with
  | nil =>
      rw [List.take_nil]
      trivial
  | cons d ds ih =>
      cases k with
      | zero => trivial
      | succ k => exact ⟨h.1, ih k h.2⟩

theorem EachRow.imp {P Q : PlacedImage → ℕ → ℕ → Prop} {row : ℕ} (h : EachRow P row ds)
    (himp : ∀ d ∈ ds, ∀ k < d.rows, ∀ row, P d k row → Q d k row) : EachRow Q row ds := by
  induction ds generalizing row with
  | nil => trivial
  | cons d ds ih =>
      obtain ⟨hd, hds⟩ := List.forall_mem_cons.mp himp
      exact ⟨fun k hk => hd k hk _ (h.1 k hk), ih h.2 hds⟩

/-! ## The layout in two parts -/

/-- What is placed later does not change the positions before it. -/
theorem layoutPositions_append_of_le {c : BitVec 32} {pos i : ℕ} (h : ∀ e ∈ es, i ≤ e.start) :
    layoutPositions c pos (ds ++ es) i = layoutPositions c pos ds i := by
  induction ds generalizing c pos with
  | nil =>
      cases es with
      | nil => rfl
      | cons e es =>
          rw [List.nil_append, layoutPositions]
          exact if_pos (h e List.mem_cons_self)
  | cons d ds ih =>
      rw [List.cons_append, layoutPositions, layoutPositions, ih]

/-- The positions from a place in the text on: the counter goes on from there. -/
theorem layoutPositions_append_of_ge {c : BitVec 32} {pos i : ℕ} (hpos : pos ≤ s)
    (hds : ∀ d ∈ ds, d.stop ≤ s) (hes : ∀ e ∈ es, s ≤ e.start) (hi : s ≤ i) :
    layoutPositions c pos (ds ++ es) i = layoutPositions (layoutPositions c pos ds s).1 s es i := by
  induction ds generalizing c pos with
  | nil =>
      change _ = layoutPositions (c + BitVec.ofNat 32 (s - pos)) s es i
      cases es with
      | nil =>
          change textPosition c (i - pos) = textPosition (c + BitVec.ofNat 32 (s - pos)) (i - s)
          unfold textPosition
          rw [add_ofNat_sub _ hpos hi]
      | cons e es =>
          have hstart := hes e List.mem_cons_self
          rw [List.nil_append, layoutPositions, layoutPositions]
          unfold textPosition
          rw [add_ofNat_sub _ hpos hi, add_ofNat_sub _ hpos (by omega)]
  | cons d ds ih =>
      obtain ⟨hd, hds⟩ := List.forall_mem_cons.mp hds
      have hrange : d.stop = d.start + 1 + d.rows := rfl
      rw [List.cons_append, layoutPositions, layoutPositions, if_neg (by omega), if_neg (by omega),
        if_neg (by omega), if_neg (by omega)]
      exact ih hd hds

/-- After the images the counter moves on with the text. -/
theorem layoutPositions_succ {c : BitVec 32} {pos i : ℕ} (hpos : pos ≤ i)
    (hds : ∀ d ∈ ds, d.stop ≤ i) :
    (layoutPositions c pos ds (i + 1)).1 = (layoutPositions c pos ds i).1 + 1 := by
  induction ds generalizing c pos with
  | nil =>
      change c + BitVec.ofNat 32 (i + 1 - pos) = c + BitVec.ofNat 32 (i - pos) + 1
      rw [Nat.succ_sub hpos, Nat.succ_eq_add_one, BitVec.ofNat_add, ← BitVec.add_assoc]
      rfl
  | cons d ds ih =>
      obtain ⟨hd, hds⟩ := List.forall_mem_cons.mp hds
      have hrange : d.stop = d.start + 1 + d.rows := rfl
      rw [layoutPositions, layoutPositions, if_neg (by omega), if_neg (by omega), if_neg (by omega),
        if_neg (by omega)]
      exact ih hd hds

/-! ## The rows of one image -/

theorem rowOf_virtualId {row : ℕ} (h : row < rowLimit) : rowOf (virtualId row) = row := by
  unfold rowLimit at h
  have hsmall : (BitVec.ofNat 32 (row + 1)).toNat = row + 1 := by
    rw [BitVec.toNat_ofNat]
    omega
  have hand : (virtualId row &&& 0x7fffffff).toNat = row + 1 := by
    unfold virtualId
    rw [BitVec.toNat_and, BitVec.toNat_or, hsmall]
    change (2 ^ 31 ||| (row + 1)) &&& (2 ^ 31 - 1) = row + 1
    rw [Nat.and_two_pow_sub_one_eq_mod, Nat.or_mod_two_pow]
    rw [Nat.mod_self, Nat.zero_or]
    omega
  unfold rowOf
  rw [hand]
  rfl

theorem modify_length_append {α : Type} (g : α → α) (A B : List α) (x : α) :
    (A ++ x :: B).modify A.length g = A ++ g x :: B := by
  induction A with
  | nil => rfl
  | cons a A ih => rw [List.cons_append, List.length_cons, List.modify_succ_cons, ih, List.cons_append]

/-- The loop over the rows of an image. -/
theorem positionRows_eq (tokens : ℕ → Token) (grid : Grid) (o : ℕ → Override β) (A B : List (Override β)) (count row : ℕ)
    (st : Positioning β) (hrows : ∀ k < count, rowOf (tokens (st.pos + k)) = A.length + k)
    (hoverrides : st.overrides = A ++ ((List.range count).map o ++ B)) :
    positionRows tokens grid count row st = {
      pos := st.pos + count
      current := st.current
      positions := fun i => if st.pos ≤ i ∧ i < st.pos + count then
          mropeAt grid st.current (row + (i - st.pos))
        else st.positions i
      overrides := A ++ ((List.range count).map (fun k =>
        { o k with position := mropeAt grid st.current (row + k) }) ++ B) } := by
  induction count generalizing A o row st with
  | zero =>
      unfold positionRows
      ext1
      · rfl
      · rfl
      · funext i
        exact (if_neg (by omega)).symm
      · exact hoverrides
  | succ count ih =>
      unfold positionRows
      dsimp only
      have hfirst := hrows 0 (Nat.succ_pos _)
      rw [Nat.add_zero, Nat.add_zero] at hfirst
      rw [List.range_succ_eq_map, List.map_cons, List.map_map, List.cons_append] at hoverrides
      have hmodify : st.overrides.modify (rowOf (tokens st.pos))
          (fun x => { x with position := mropeAt grid st.current row }) =
            (A ++ [{ o 0 with position := mropeAt grid st.current row }]) ++
              ((List.range count).map (fun k => o (k + 1)) ++ B) := by
        rw [hfirst, hoverrides, modify_length_append, List.append_assoc]
        rfl
      rw [ih (fun k => o (k + 1)) (A ++ [{ o 0 with position := mropeAt grid st.current row }]) (row + 1)
        _ ?_ hmodify]
      · ext1
        · dsimp only
          omega
        · rfl
        · funext i
          dsimp only
          rcases eq_or_ne i st.pos with rfl | hne
          · rw [if_neg (by omega), if_pos (by omega), Function.update_self, Nat.sub_self, Nat.add_zero]
          · rw [Function.update_of_ne hne]
            by_cases hin : st.pos ≤ i ∧ i < st.pos + (count + 1)
            · rw [if_pos (by omega), if_pos hin]
              congr 1
              omega
            · rw [if_neg (by omega), if_neg hin]
        · dsimp only
          rw [List.range_succ_eq_map, List.map_cons, List.map_map, List.append_assoc,
            List.singleton_append, List.cons_append, Nat.add_zero]
          congr 3
          apply List.map_congr_left
          intro k _
          rw [Function.comp_apply, Nat.succ_eq_add_one, Nat.add_right_comm, Nat.add_assoc]
      · intro k hk
        have hrow := hrows (k + 1) (by omega)
        dsimp only
        rw [List.length_append, List.length_singleton, Nat.add_right_comm st.pos, Nat.add_assoc st.pos,
          hrow]
        omega

/-! ## The loop -/

/-- One turn, on text. -/
theorem assignPositions_step {fuel : ℕ} {grids : List Grid} (hpos : st.pos < n)
    (htext : modality st.pos = false) :
    assignPositions tokens modality n (fuel + 1) grids st =
      assignPositions tokens modality n fuel grids {
        st with
        pos := st.pos + 1
        current := st.current + 1
        positions := Function.update st.positions st.pos (st.current, st.current, st.current) } := by
  rw [assignPositions.eq_def]
  dsimp only
  rw [if_neg (not_le.mpr hpos), if_pos htext]

/-- One turn, on an image. -/
theorem assignPositions_image {fuel : ℕ} {grid : Grid} {grids : List Grid} (hpos : st.pos < n)
    (himage : modality st.pos = true) :
    assignPositions tokens modality n (fuel + 1) (grid :: grids) st =
      if grid.height % 2 ≠ 0 ∨ grid.width % 2 ≠ 0 then
        .error "Qwen vision grid is not divisible by spatial merge size 2"
      else
        let st := positionRows tokens grid grid.rows.toNat 0 st
        assignPositions tokens modality n fuel grids
          { st with current := st.current + advanceOf grid } := by
  rw [assignPositions.eq_def]
  dsimp only
  rw [if_neg (not_le.mpr hpos), if_neg (by rw [himage]; decide)]

/-- Text moves on by one position a token. -/
theorem assignPositions_text (tokens : ℕ → Token) (grids : List Grid) {fuel q : ℕ} (hq : st.pos ≤ q) (hn : q ≤ n)
    (hfuel : n ≤ st.pos + fuel) (htext : ∀ i, st.pos ≤ i → i < q → modality i = false) :
    ∃ fuel', n ≤ q + fuel' ∧ assignPositions tokens modality n fuel grids st =
      assignPositions tokens modality n fuel' grids {
        st with
        pos := q
        current := st.current + BitVec.ofNat 32 (q - st.pos)
        positions := fun i => if st.pos ≤ i ∧ i < q then textPosition st.current (i - st.pos)
          else st.positions i } := by
  induction fuel generalizing st with
  | zero =>
      have hpos : st.pos = q := by omega
      subst hpos
      refine ⟨0, hfuel, ?_⟩
      congr 1
      ext1
      · rfl
      · dsimp only
        rw [Nat.sub_self]
        exact (BitVec.add_zero _).symm
      · funext i
        exact (if_neg (by omega)).symm
      · rfl
  | succ fuel ih =>
      rcases Nat.eq_or_lt_of_le hq with rfl | hlt
      · refine ⟨fuel + 1, hfuel, ?_⟩
        congr 1
        ext1
        · rfl
        · dsimp only
          rw [Nat.sub_self]
          exact (BitVec.add_zero _).symm
        · funext i
          exact (if_neg (by omega)).symm
        · rfl
      · obtain ⟨fuel', hfuel', hrun⟩ := @ih {
            st with
            pos := st.pos + 1
            current := st.current + 1
            positions := Function.update st.positions st.pos (st.current, st.current, st.current) }
          hlt (by dsimp only; omega) fun i hi => htext i (by dsimp only at hi; omega)
        refine ⟨fuel', hfuel', ?_⟩
        rw [assignPositions_step (by omega) (htext _ le_rfl hlt), hrun]
        congr 1
        ext1
        · rfl
        · dsimp only
          rw [add_one_add_ofNat, ← Nat.sub_sub, Nat.sub_add_cancel (by omega)]
        · funext i
          dsimp only
          rcases eq_or_ne i st.pos with rfl | hne
          · rw [if_neg (by omega), if_pos (by omega), Function.update_self, Nat.sub_self]
            exact (textPosition_zero st.current).symm
          · rw [Function.update_of_ne hne]
            by_cases hin : st.pos ≤ i ∧ i < q
            · rw [if_pos (by omega), if_pos hin, textPosition_succ, ← Nat.sub_sub,
                Nat.sub_add_cancel (by omega)]
            · rw [if_neg (by omega), if_neg hin]
        · rfl

/-- Past the end there is nothing left to do. -/
theorem assignPositions_done {fuel : ℕ} {grids : List Grid} (h : n ≤ st.pos) :
    assignPositions tokens modality n fuel grids st = .ok st := by
  cases fuel with
  | zero => rfl
  | succ fuel =>
      rw [assignPositions.eq_def]
      dsimp only
      rw [if_pos h]

theorem inImage_cons_of_stop_le {i : ℕ} (h : d.stop ≤ i) : inImage (d :: ds) i = inImage ds i := by
  unfold inImage
  rw [List.any_cons, decide_eq_false (by omega), Bool.false_or]

theorem inImage_of_le_start {i : ℕ} (h : ∀ d ∈ ds, i ≤ d.start) : inImage ds i = false := by
  unfold inImage
  rw [List.any_eq_false]
  intro d hd
  have hle := h d hd
  rw [decide_eq_true_eq]
  omega

theorem inImage_of_stop_le {i : ℕ} (h : ∀ d ∈ ds, d.stop ≤ i) : inImage ds i = false := by
  unfold inImage
  rw [List.any_eq_false]
  intro d hd
  have hle := h d hd
  rw [decide_eq_true_eq]
  omega

/-- The text before an image and the image. -/
theorem assignPositions_cons {A B : List (Override β)} {o : ℕ → Override β} {fuel : ℕ}
    (grids : List Grid) (hs : st.pos ≤ d.start) (hstop : d.stop < n) (hpos : 0 < d.rows)
    (hfuel : n ≤ st.pos + fuel) (hfits : Fits m n tokens' d.stop ds)
    (hmodality : ∀ i, st.pos ≤ i → modality i = inImage (d :: ds) i)
    (hrows : ∀ k < d.rows, rowOf (tokens (d.start + 1 + k)) = A.length + k)
    (hoverrides : st.overrides = A ++ ((List.range d.rows).map o ++ B)) :
    let first := st.current + BitVec.ofNat 32 (d.start + 1 - st.pos)
    ∃ fuel' st', n ≤ d.stop + fuel' ∧ assignPositions tokens modality n fuel (d.grid :: grids) st =
        (if d.grid.height % 2 ≠ 0 ∨ d.grid.width % 2 ≠ 0 then
          .error "Qwen vision grid is not divisible by spatial merge size 2"
        else assignPositions tokens modality n fuel' grids st') ∧
      st'.pos = d.stop ∧ st'.current = first + advanceOf d.grid ∧
      (∀ i, st'.positions i =
        if d.start < i ∧ i < d.stop then mropeAt d.grid first (i - (d.start + 1))
        else if st.pos ≤ i ∧ i ≤ d.start then textPosition st.current (i - st.pos)
        else st.positions i) ∧
      st'.overrides = A ++ ((List.range d.rows).map (fun k =>
        { o k with position := mropeAt d.grid first k }) ++ B) := by
  intro first
  have hrange : d.stop = d.start + 1 + d.rows := rfl
  have hin : ∀ i, d.start < i → i < d.stop → inImage (d :: ds) i = true := by
    intro i hlt hlt'
    unfold inImage
    rw [List.any_cons, decide_eq_true ⟨hlt, hlt'⟩, Bool.true_or]
  have hbefore : ∀ i, st.pos ≤ i → i < d.start + 1 → modality i = false := by
    intro i hle hlt
    rw [hmodality i hle]
    apply inImage_of_le_start
    rw [List.forall_mem_cons]
    refine ⟨by omega, fun e he => ?_⟩
    have hafter := hfits.le_start e he
    omega
  obtain ⟨fuel', hfuel', htext⟩ := assignPositions_text tokens (d.grid :: grids)
    (Nat.le_succ_of_le hs) (by omega) hfuel hbefore
  cases fuel' with
  | zero => omega
  | succ fuel' =>
      rw [assignPositions_image (by dsimp only; omega)
        ((hmodality _ (by dsimp only; omega)).trans (hin _ (Nat.lt_succ_self _) (by dsimp only; omega)))]
        at htext
      have hdraw := positionRows_eq tokens d.grid o A B d.grid.rows.toNat 0 {
        st with
        pos := d.start + 1
        current := first
        positions := fun i =>
          if st.pos ≤ i ∧ i < d.start + 1 then textPosition st.current (i - st.pos)
          else st.positions i } hrows hoverrides
      dsimp only at htext
      rw [hdraw] at htext
      refine ⟨fuel', _, by omega, htext, rfl, rfl, fun i => ?_, ?_⟩
      · dsimp only
        rw [Nat.zero_add]
        by_cases hrow : d.start < i ∧ i < d.stop
        · rw [if_pos hrow, if_pos]
          exact hrow
        · rw [if_neg hrow, if_neg]
          · exact if_congr (and_congr_right fun _ => Nat.lt_succ_iff) rfl rfl
          · exact hrow
      · dsimp only
        congr 3
        funext k
        rw [Nat.zero_add]

/-- **The loop over the positions** computes the layout, on grids that can be merged. -/
theorem assignPositions_ok {A : List (Override β)} {row fuel : ℕ} (hn : st.pos ≤ n)
    (hfuel : n ≤ st.pos + fuel) (hfits : Fits m n tokens' st.pos ds) (hpos : ∀ d ∈ ds, 0 < d.rows)
    (heven : ∀ d ∈ ds, EvenGrid d.grid) (hmodality : ∀ i, st.pos ≤ i → modality i = inImage ds i)
    (hnumbered : Numbered tokens row ds) (hlength : A.length = row)
    (hlimit : row + totalRows ds ≤ rowLimit)
    (hoverrides : st.overrides = A ++ overridesAt m f (fun _ => (0, 0, 0)) row ds) :
    ∃ st', assignPositions tokens modality n fuel (ds.map PlacedImage.grid) st = .ok st' ∧
      (∀ i < n, st'.positions i =
        if i < st.pos then st.positions i else layoutPositions st.current st.pos ds i) ∧
      st'.overrides = A ++ overridesAt m f (layoutPositions st.current st.pos ds) row ds := by
  induction ds generalizing st A row fuel with
  | nil =>
      obtain ⟨fuel', -, htext⟩ := assignPositions_text tokens [] hn le_rfl hfuel
        fun i hi _ => hmodality i hi
      refine ⟨_, htext.trans (assignPositions_done (le_refl n)), fun i hi => ?_, hoverrides⟩
      dsimp only
      by_cases hbefore : i < st.pos
      · rw [if_neg (by omega), if_pos hbefore]
      · rw [if_pos (by omega), if_neg hbefore]
        rfl
  | cons d ds ih =>
      obtain ⟨hs, hd, hrest⟩ := hfits
      obtain ⟨hdpos, hpos⟩ := List.forall_mem_cons.mp hpos
      obtain ⟨hdeven, heven⟩ := List.forall_mem_cons.mp heven
      obtain ⟨hdrows, hnumbered⟩ := hnumbered
      have htotal : totalRows (d :: ds) = d.rows + totalRows ds := List.sum_cons
      have hrange : d.stop = d.start + 1 + d.rows := rfl
      have hrows : ∀ k < d.rows, rowOf (tokens (d.start + 1 + k)) = A.length + k := by
        intro k hk
        rw [hdrows k hk, rowOf_virtualId (by omega), hlength]
      rw [overridesAt] at hoverrides
      obtain ⟨fuel', st₁, hfuel', hrun, hpos₁, hcurrent₁, hpositions₁, hoverrides₁⟩ :=
        assignPositions_cons (ds.map PlacedImage.grid) hs hd.stop_lt hdpos hfuel hrest hmodality hrows
          hoverrides
      rw [if_neg (by rintro (h | h); exacts [h hdeven.1, h hdeven.2])] at hrun
      rw [← List.append_assoc] at hoverrides₁
      obtain ⟨st', hok, hpositions, hover⟩ := ih (hpos₁.trans_le hd.stop_lt.le) (hpos₁ ▸ hfuel')
        (by rwa [hpos₁]) hpos heven
        (fun i hi => (hmodality i (by omega)).trans (inImage_cons_of_stop_le (by omega))) hnumbered
        (by rw [List.length_append, List.length_map, List.length_range, hlength]) (by omega) hoverrides₁
      have hlayout : ∀ i, d.stop ≤ i → layoutPositions st.current st.pos (d :: ds) i =
          layoutPositions st₁.current st₁.pos ds i := by
        intro i hi
        rw [layoutPositions, if_neg (by omega), if_neg (by omega), hcurrent₁, hpos₁]
      refine ⟨st', hrun.trans hok, fun i hi => ?_, ?_⟩
      · rw [hpositions i hi, hpos₁]
        by_cases hstop : i < d.stop
        · rw [if_pos hstop, hpositions₁ i, layoutPositions]
          by_cases hstart : i ≤ d.start
          · rw [if_neg (by omega), if_pos hstart]
            by_cases hbefore : i < st.pos
            · rw [if_neg (by omega), if_pos hbefore]
            · rw [if_pos (by omega), if_neg hbefore]
          · rw [if_pos (by omega), if_neg (by omega), if_neg hstart, if_pos hstop]
        · rw [if_neg hstop, if_neg (by omega), hlayout i (by omega), hpos₁]
      · rw [hover, overridesAt, List.append_assoc]
        congr 2
        · apply List.map_congr_left
          intro k hk
          rw [List.mem_range] at hk
          rw [layoutPositions, if_neg (by omega), if_pos (by omega), Nat.add_sub_cancel_left]
        · apply overridesAt_congr
          intro e he i hlt _
          have hafter := hrest.le_start e he
          exact (hlayout i (by omega)).symm

/-- A grid that cannot be merged makes it fail. -/
theorem assignPositions_error {A : List (Override β)} {row fuel : ℕ} (hn : st.pos ≤ n)
    (hfuel : n ≤ st.pos + fuel) (hfits : Fits m n tokens' st.pos ds) (hpos : ∀ d ∈ ds, 0 < d.rows)
    (hodd : ¬ ∀ d ∈ ds, EvenGrid d.grid) (hmodality : ∀ i, st.pos ≤ i → modality i = inImage ds i)
    (hnumbered : Numbered tokens row ds) (hlength : A.length = row)
    (hlimit : row + totalRows ds ≤ rowLimit)
    (hoverrides : st.overrides = A ++ overridesAt m f (fun _ => (0, 0, 0)) row ds) :
    ∃ e, assignPositions tokens modality n fuel (ds.map PlacedImage.grid) st = .error e := by
  induction ds generalizing st A row fuel with
  | nil => exact absurd (fun d hd => absurd hd List.not_mem_nil) hodd
  | cons d ds ih =>
      obtain ⟨hs, hd, hrest⟩ := hfits
      obtain ⟨hdpos, hpos⟩ := List.forall_mem_cons.mp hpos
      obtain ⟨hdrows, hnumbered⟩ := hnumbered
      have htotal : totalRows (d :: ds) = d.rows + totalRows ds := List.sum_cons
      have hrange : d.stop = d.start + 1 + d.rows := rfl
      have hrows : ∀ k < d.rows, rowOf (tokens (d.start + 1 + k)) = A.length + k := by
        intro k hk
        rw [hdrows k hk, rowOf_virtualId (by omega), hlength]
      rw [overridesAt] at hoverrides
      obtain ⟨fuel', st₁, hfuel', hrun, hpos₁, -, -, hoverrides₁⟩ :=
        assignPositions_cons (ds.map PlacedImage.grid) hs hd.stop_lt hdpos hfuel hrest hmodality hrows
          hoverrides
      by_cases heven : EvenGrid d.grid
      · rw [if_neg (by rintro (h | h); exacts [h heven.1, h heven.2])] at hrun
        rw [← List.append_assoc] at hoverrides₁
        obtain ⟨e, herror⟩ := ih (hpos₁.trans_le hd.stop_lt.le) (hpos₁ ▸ hfuel') (by rwa [hpos₁]) hpos
          (fun h => hodd (List.forall_mem_cons.mpr ⟨heven, h⟩))
          (fun i hi => (hmodality i (by omega)).trans (inImage_cons_of_stop_le (by omega))) hnumbered
          (by rw [List.length_append, List.length_map, List.length_range, hlength]) (by omega) hoverrides₁
        exact ⟨e, hrun.trans herror⟩
      · rw [if_pos (not_and_or.mp heven)] at hrun
        exact ⟨_, hrun⟩

end Qw3.Vision
