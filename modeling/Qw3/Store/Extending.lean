import Qw3.Store.Recorded
import Qw3.Store.Views

/-!
# An extension is a larger append

An append that is extended holds what an append of the final length would have
held from the start: the same slots, in the same order.

* `reserveBlocks_append` — two reservations that follow each other are one.
* `Laid.eq_of_handles` — the spans are given by their slots and where they end.
* `prepare_of_extend` — the state after an extension is the one after the larger
  preparation.
* `State.extendAll`, `prepare_of_extendAll` — any number of extensions.
-/

namespace Qw3.Store

open Qw3.Repository (KvMemBlockHandle Record Repo uint32Max uint64Max)

variable {s t : State} {a : Append} {more : List Span}

/-! ## The reservations -/

/-- A reservation loop that succeeds has taken a slot and an identity for each block. -/
theorem reserveBlocks_used {b stop n pos : ℕ} {r r' : Repo} {l : List Span}
    (h : State.reserveBlocks b stop n pos r = some (l, r')) :
    l.length = n ∧ r.ready.length = n + r'.ready.length ∧ r'.sequence = r.sequence + n := by
  induction n generalizing pos r r' l with
  | zero =>
      obtain ⟨rfl, rfl⟩ := Prod.mk.inj (Option.some.inj h)
      exact ⟨rfl, (Nat.zero_add _).symm, rfl⟩
  | succ n ih =>
      unfold State.reserveBlocks at h
      cases hfirst : r.tryReserve pos b with
      | none => simp [hfirst] at h
      | some p =>
          obtain ⟨g, r₁⟩ := p
          simp only [hfirst, Option.map_eq_some_iff, Prod.mk.injEq, Prod.exists] at h
          obtain ⟨rest, r₂, hrest, rfl, rfl⟩ := h
          obtain ⟨-, -, hsequence, -, -, hready, -⟩ := Repo.tryReserve_eq_some hfirst
          obtain ⟨hlength, hready', hsequence'⟩ := ih hrest
          rw [hready, List.length_cons, List.length_cons]
          omega

/-- **Two reservations are one.**  Which slots are taken does not depend on where
the append ends. -/
theorem reserveBlocks_append {b stop stop' n m pos : ℕ} {r r₁ r₂ : Repo} {l more : List Span}
    (h : State.reserveBlocks b stop n pos r = some (l, r₁))
    (h' : State.reserveBlocks b stop' m (pos + n * b) r₁ = some (more, r₂)) :
    ∃ l', State.reserveBlocks b stop' (n + m) pos r = some (l', r₂) ∧
      l'.map Span.handle = l.map Span.handle ++ more.map Span.handle := by
  induction n generalizing pos r l with
  | zero =>
      obtain ⟨rfl, rfl⟩ := Prod.mk.inj (Option.some.inj h)
      rw [Nat.zero_mul, Nat.add_zero] at h'
      exact ⟨more, by rw [Nat.zero_add, h'], rfl⟩
  | succ n ih =>
      unfold State.reserveBlocks at h
      cases hfirst : r.tryReserve pos b with
      | none => simp [hfirst] at h
      | some p =>
          obtain ⟨g, r₀⟩ := p
          simp only [hfirst, Option.map_eq_some_iff, Prod.mk.injEq, Prod.exists] at h
          obtain ⟨rest, r₃, hrest, rfl, rfl⟩ := h
          have hpos : pos + (n + 1) * b = pos + b + n * b := by ring
          rw [hpos] at h'
          obtain ⟨l', hl', hhandles⟩ := ih hrest h'
          refine ⟨⟨pos, g.slot * b, min b (stop' - pos), g⟩ :: l', ?_, ?_⟩
          · rw [Nat.add_right_comm, State.reserveBlocks, hfirst]
            dsimp only
            rw [hl']
            rfl
          · rw [List.map_cons, hhandles]
            rfl

/-- The spans of new blocks are given by their handles. -/
theorem Laid.eq_of_handles {b stop pos : ℕ} {l l' : List Span} (h : Laid b stop pos l)
    (h' : Laid b stop pos l') (hhandles : l.map Span.handle = l'.map Span.handle) : l = l' := by
  induction l generalizing pos l' with
  | nil => exact (List.map_eq_nil_iff.mp hhandles.symm).symm
  | cons sp rest ih =>
      cases l' with
      | nil => cases hhandles
      | cons sp' rest' =>
          obtain ⟨hhandle, hrest⟩ := List.cons.inj hhandles
          obtain ⟨-, hbegin, hstorage, hcount, hlaid⟩ := h
          obtain ⟨-, hbegin', hstorage', hcount', hlaid'⟩ := h'
          rw [ih hlaid hlaid' hrest]
          congr 1
          obtain ⟨historyBegin, storageBegin, tokenCount, handle⟩ := sp
          obtain ⟨historyBegin', storageBegin', tokenCount', handle'⟩ := sp'
          dsimp only at hhandle hbegin hstorage hcount hbegin' hstorage' hcount'
          rw [hbegin, hstorage, hcount, hbegin', hstorage', hcount', hhandle]

/-- Just enough blocks are as many as `ceil_div_u32` says. -/
theorem ceilDiv_eq {b n x : ℕ} (hb : 0 < b) (henough : x ≤ n * b)
    (hneeded : n = 0 ∨ (n - 1) * b < x) : State.ceilDiv x b = n := by
  unfold State.ceilDiv
  apply Nat.div_eq_of_lt_le
  · rcases hneeded with rfl | hlt
    · omega
    · cases n with
      | zero => omega
      | succ n =>
          rw [Nat.add_sub_cancel] at hlt
          rw [Nat.succ_mul]
          omega
  · rw [Nat.succ_mul]
    omega

/-! ## The tail -/

/-- The tail's checks for a longer append: they depend on the record only. -/
theorem pinTail_longer (hs : s.Recorded) {start take take' bakedBegin : ℕ} {tail : Option Span}
    {r : Repo} (h : s.pinTail start take bakedBegin = .ok (tail, r))
    (hzero : take = 0 ↔ take' = 0)
    (hfits : start % s.config.blockTokens + take' ≤ s.config.blockTokens) :
    s.pinTail start take' bakedBegin =
      .ok (tail.map fun sp => { sp with tokenCount := take' }, r) := by
  unfold State.pinTail at h ⊢
  dsimp only at h ⊢
  by_cases htake : take = 0
  · rw [if_pos htake] at h
    rw [if_pos (hzero.mp htake)]
    obtain ⟨rfl, rfl⟩ := Prod.mk.inj (Except.ok.inj h)
    rfl
  · rw [if_neg htake] at h
    rw [if_neg (mt hzero.mpr htake)]
    cases hlookup : s.history.lookup (start - start % s.config.blockTokens) with
    | none => simp [hlookup] at h
    | some g =>
        cases hpin : s.repo.tryPin g with
        | none => simp [hlookup, hpin] at h
        | some r' =>
            simp only [hlookup, hpin] at h ⊢
            split_ifs at h with hmismatch
            obtain ⟨rfl, rfl⟩ := Prod.mk.inj (Except.ok.inj h)
            have hwhole : (r'.record g.slot).tokenCount = s.config.blockTokens := by
              rw [(Quiet.tryPin hpin).record]
              exact hs.tokenCount (Repo.tryPin_eq_some hpin).1
            rw [not_or, not_or, not_or] at hmismatch
            rw [if_neg]
            · rfl
            · rw [not_or, not_or, not_or, hwhole, not_lt]
              exact ⟨hmismatch.1, hmismatch.2.1, hmismatch.2.2.1, hfits⟩

/-! ## Extending once -/

theorem pinTail_ready {start take bakedBegin : ℕ} {tail : Option Span} {r : Repo}
    (h : s.pinTail start take bakedBegin = .ok (tail, r)) :
    r.ready = s.repo.ready ∧ r.sequence = s.repo.sequence := by
  unfold State.pinTail at h
  dsimp only at h
  split_ifs at h
  · obtain ⟨-, rfl⟩ := Prod.mk.inj (Except.ok.inj h)
    exact ⟨rfl, rfl⟩
  · split at h
    · cases h
    · split at h
      · cases h
      · rename_i r' hpin
        split_ifs at h
        obtain ⟨-, rfl⟩ := Prod.mk.inj (Except.ok.inj h)
        obtain ⟨-, c, rfl, -⟩ := Repo.tryPin_eq_some hpin
        exact ⟨rfl, rfl⟩

theorem tailTake_eq_zero_iff {b start count : ℕ} (hb : 0 < b) (hcount : count ≠ 0) :
    State.tailTake b start count = 0 ↔ start % b = 0 := by
  have hmod := Nat.mod_lt start hb
  unfold State.tailTake
  split_ifs with hzero
  · simp [hzero]
  · simp only [hzero, iff_false]
    omega

/-- The blocks of a longer append are those it had and those that were added. -/
theorem extension_blocks {b first start c c' n m take take' : ℕ} (hb : 0 < b) (hlt : c < c')
    (htake : start + take = min (start + c) first)
    (htake' : start + take' = min (start + c') first) (hn : State.ceilDiv (c - take) b = n)
    (hm : (if start + c' ≤ first + n * b then 0
      else State.ceilDiv (start + c' - (first + n * b)) b) = m) :
    State.ceilDiv (c' - take') b = n + m ∧ (n ≠ 0 → take' = take ∧ start + take = first) ∧
      (n + m ≠ 0 → start + take' = first) := by
  obtain ⟨henough, hneeded⟩ := ceilDiv_enough hb (c - take)
  rw [hn] at henough hneeded
  have hfull : n ≠ 0 → start + take = first := by
    intro hne
    have hpos := hneeded.resolve_left hne
    omega
  have hfull' : n ≠ 0 → take' = take := by
    intro hne
    have := hfull hne
    omega
  by_cases hfits : start + c' ≤ first + n * b
  · rw [if_pos hfits] at hm
    obtain rfl : m = 0 := hm.symm
    rw [Nat.add_zero]
    refine ⟨ceilDiv_eq hb (by omega) ?_, fun hne => ⟨hfull' hne, hfull hne⟩, ?_⟩
    · refine hneeded.imp_right ?_
      intro hlow
      omega
    · intro hne
      rw [hfull' hne]
      exact hfull hne
  · rw [if_neg hfits] at hm
    obtain ⟨henough', hneeded'⟩ := ceilDiv_enough hb (start + c' - (first + n * b))
    rw [hm] at henough' hneeded'
    have hmpos : (m - 1) * b < start + c' - (first + n * b) := by
      refine hneeded'.resolve_left ?_
      rintro rfl
      omega
    have hne : m ≠ 0 := by
      rintro rfl
      omega
    have hreach : start + take' = first := by omega
    refine ⟨ceilDiv_eq hb ?_ (.inr ?_), fun hne => ⟨hfull' hne, hfull hne⟩, fun _ => hreach⟩
    · rw [Nat.add_mul]
      omega
    · rw [Nat.add_sub_assoc (Nat.one_le_iff_ne_zero.mpr hne), Nat.add_mul]
      omega

/-- The tail of an extended append is the one the longer append would have pinned. -/
theorem State.AppendOk.tail_longer (h : s.AppendOk a) {c' take' reservedEnd : ℕ}
    (hnew : a.reserved = [] → min (a.begin + c') reservedEnd = a.begin + take')
    (hold : a.reserved ≠ [] → take' = State.tailTake s.config.blockTokens a.begin a.count) :
    (a.extended c' (a.begin + c') reservedEnd more).tail =
      a.tail.map fun sp => { sp with tokenCount := take' } := by
  unfold Append.extended
  dsimp only
  cases htail : a.tail with
  | none => split_ifs <;> rfl
  | some sp =>
      have hsp := h.tail_some sp htail
      split_ifs with hreserved
      · have hcount : min (a.begin + c') reservedEnd - sp.historyBegin = take' := by
          rw [hnew hreserved, hsp.historyBegin, Nat.add_sub_cancel_left]
        rw [Option.map_some, Option.map_some, hcount]
      · rw [Option.map_some, hold hreserved, ← hsp.tokenCount]

/-- **One extension.**  The larger append could have been prepared at once, with
the same result. -/
theorem prepare_of_extend (hs : s.Inv) (hrec : s.Recorded) {c c' bakedBegin : ℕ} {u : State}
    (h : s.prepareRepositoryAppend c bakedBegin = .ok (some t)) (h' : t.extend c' = .ok (some u)) :
    s.prepareRepositoryAppend (max c c') bakedBegin = .ok (some u) := by
  have ht := hs.prepareAppend h
  have hu := ht.extend h'
  obtain ⟨tail, reserved, r, r₁, hp, rfl⟩ := prepare_eq_ok.mp h
  have ha := ht.append _ rfl
  have hb := hs.block_pos
  have hend := ha.blocks_end hb
  obtain ⟨hused, hready, hsequence⟩ := reserveBlocks_used hp.reserve
  obtain ⟨hready₀, hsequence₀⟩ := pinTail_ready hp.tail
  have htake := add_tailTake hb s.totalTokens c
  have htake' := add_tailTake hb s.totalTokens c'
  have hvalid := hp.valid
  obtain ⟨_, ha', ⟨hle, rfl⟩ | ⟨m, more, r₂, hx, rfl⟩⟩ := extend_eq_ok h'
  all_goals obtain rfl := Option.some.inj ha'
  · rw [max_eq_left hle]
    exact h
  · have hle := hx.longer
    have hm := hx.missing
    have hmore := hx.reserve
    have hidentity := hx.identities
    have hoverflow := hx.valid
    have hlaid := (hu.append _ rfl).laid
    dsimp only at hle hm hmore hend hidentity hoverflow hlaid ⊢
    rw [← hend, hused] at hm hmore hlaid ⊢
    generalize hn : State.ceilDiv (c - State.tailTake s.config.blockTokens s.totalTokens c)
      s.config.blockTokens = n at hm hmore hused hready hsequence hlaid ⊢
    rw [max_eq_right hle.le]
    obtain ⟨hblocks, hkept, hreach⟩ := extension_blocks hb hle htake htake' hn hm
    have hpositive : c ≠ 0 ∧ c' ≠ 0 := by omega
    have hzero : State.tailTake s.config.blockTokens s.totalTokens c = 0 ↔
        State.tailTake s.config.blockTokens s.totalTokens c' = 0 :=
      (tailTake_eq_zero_iff hb hpositive.1).trans (tailTake_eq_zero_iff hb hpositive.2).symm
    -- The slots: those of the first reservation, then those of the second.
    have hfirst : State.reserveBlocks s.config.blockTokens (s.totalTokens + c) n
        (firstBlock s.config.blockTokens s.totalTokens) r = some (reserved, r₁) := by
      have hreserve := hp.reserve
      rw [hn] at hreserve
      by_cases hnone : n = 0
      · rw [hnone] at hreserve ⊢
        exact hreserve
      · rw [(hkept hnone).2] at hreserve
        exact hreserve
    obtain ⟨l, hl, hhandles⟩ := reserveBlocks_append hfirst hmore
    have hreserve : State.reserveBlocks s.config.blockTokens (s.totalTokens + c') (n + m)
        (s.totalTokens + State.tailTake s.config.blockTokens s.totalTokens c') r =
          some (l, r₂) := by
      by_cases hnone : n + m = 0
      · rw [hnone] at hl ⊢
        exact hl
      · rw [hreach hnone]
        exact hl
    -- The spans: both lists have these slots and end at the same position.
    have hspans : l = (Append.extended ⟨s.totalTokens, c, bakedBegin, tail, reserved⟩ c'
        (s.totalTokens + c') (firstBlock s.config.blockTokens s.totalTokens +
          n * s.config.blockTokens) more).reserved := by
      have hsame : l.map Span.handle = (Append.extended
          ⟨s.totalTokens, c, bakedBegin, tail, reserved⟩ c' (s.totalTokens + c')
          (firstBlock s.config.blockTokens s.totalTokens + n * s.config.blockTokens)
          more).reserved.map Span.handle := by
        rw [hhandles]
        unfold Append.extended
        rw [List.map_append, setLastCount_map_handle]
      by_cases hnone : n + m = 0
      · have hempty := List.length_eq_zero_iff.mp ((reserveBlocks_used hreserve).1.trans hnone)
        rw [hempty] at hsame ⊢
        exact (List.map_eq_nil_iff.mp hsame.symm).symm
      · obtain ⟨henough, hneeded⟩ := ceilDiv_enough hb (c' -
          State.tailTake s.config.blockTokens s.totalTokens c')
        obtain ⟨-, hok, -, -⟩ := pinTail_spec hs hp.tail
        rw [hblocks] at henough hneeded
        obtain ⟨hnew, -, -⟩ := reserveBlocks_spec hok (by omega)
          (hneeded.imp_right fun hlt => by omega) hreserve
        rw [hreach hnone] at hnew
        exact hnew.eq_of_handles hlaid hsame
    have htail : (Append.extended ⟨s.totalTokens, c, bakedBegin, tail, reserved⟩ c'
        (s.totalTokens + c') (firstBlock s.config.blockTokens s.totalTokens +
          n * s.config.blockTokens) more).tail =
        tail.map fun sp =>
          { sp with tokenCount := State.tailTake s.config.blockTokens s.totalTokens c' } := by
      apply ha.tail_longer
      · intro hnone
        have hnone : n = 0 := hused.symm.trans (List.length_eq_zero_iff.mpr hnone)
        rw [hnone, Nat.zero_mul, Nat.add_zero]
        exact htake'.symm
      · intro hsome
        have hsome : n ≠ 0 := hused ▸ mt List.length_eq_zero_iff.mp hsome
        exact (hkept hsome).1
    refine prepare_eq_ok.mpr ⟨_, l, r, r₂, ⟨hp.idle, by omega, .inr hx.fits, ?_, ?_,
      pinTail_longer hrec hp.tail hzero ?_, ?_⟩, ?_⟩
    · rw [hblocks, ← hready₀, hready]
      exact Nat.add_le_add_left hx.ready n
    · rw [hblocks, ← hsequence₀]
      omega
    · have hmod := Nat.mod_lt s.totalTokens hb
      unfold State.tailTake
      split_ifs <;> omega
    · rw [hblocks]
      exact hreserve
    · rw [← htail, hspans]
      rfl

/-! ## Any number of extensions -/

/-- The state after an extension, or the same one where it returns false or throws. -/
def State.extendTo (s : State) (count : ℕ) : State :=
  match s.extend count with
  | .ok (some t) => t
  | _ => s

/-- Several extensions. -/
def State.extendAll (s : State) (counts : List ℕ) : State := counts.foldl State.extendTo s

theorem extendTo_cases (s : State) (count : ℕ) :
    s.extendTo count = s ∨ s.extend count = .ok (some (s.extendTo count)) := by
  unfold State.extendTo
  split
  · rename_i t h
    exact .inr h
  · exact .inl rfl

/-- **Any number of extensions.**  The append they leave could have been prepared
at once. -/
theorem prepare_of_extendAll (hs : s.Inv) (hrec : s.Recorded) {c bakedBegin : ℕ}
    (h : s.prepareRepositoryAppend c bakedBegin = .ok (some t)) (counts : List ℕ) :
    ∃ a, (t.extendAll counts).append = some a ∧
      s.prepareRepositoryAppend a.count bakedBegin = .ok (some (t.extendAll counts)) := by
  induction counts generalizing t c with
  | nil =>
      obtain ⟨tail, reserved, r, r₁, -, rfl⟩ := prepare_eq_ok.mp h
      exact ⟨_, rfl, h⟩
  | cons count rest ih =>
      rcases extendTo_cases t count with heq | hextend
      · have hrest := ih h
        unfold State.extendAll at hrest ⊢
        rw [List.foldl_cons, heq]
        exact hrest
      · exact ih (prepare_of_extend hs hrec h hextend)

end Qw3.Store
