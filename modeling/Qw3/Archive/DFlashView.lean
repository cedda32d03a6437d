import Qw3.Archive.DFlash

/-!
# The view of a draft archive

`read_dflash_archive` reads an untrusted table of entries twice; the restore path
takes the offsets of the second pass as they are.

* `DFlashArchiveView.place` — where a view says that a tensor is.
* `Placing` — what the second pass keeps: what is placed lies before the offset that
  it has come to, and no two places meet.
* `dflashView_inBounds` — **a view is in bounds**.
-/

namespace Qw3.Archive

open KvMemArchiveStateEntry

/-! ## Places -/

/-- The place of a layer's key tensor, or of its value tensor. -/
def DFlashArchiveView.place (v : DFlashArchiveView) : Bool × ℕ → Option ℕ
  | (false, layer) => (v.keys[layer]?).join
  | (true, layer) => (v.values[layer]?).join

/-- How many layers have tensors. -/
def DFlashArchiveView.count (v : DFlashArchiveView) : ℕ := if v.rows ≠ 0 then v.layers else 0

/-- Views that differ in their places only. -/
structure SameShape (v v' : DFlashArchiveView) : Prop where
  keys : v'.keys.length = v.keys.length
  values : v'.values.length = v.values.length
  eq : { v' with keys := v.keys, values := v.values } = v

/-- The second pass has come to an offset: what it has placed lies before that, and no
two places meet. -/
structure Placing (v : DFlashArchiveView) (offset : ℕ) : Prop where
  before : ∀ p a, v.place p = some a → a + v.tensorBytes ≤ offset
  disjoint : ∀ p q a b, p ≠ q → v.place p = some a → v.place q = some b →
    a + v.tensorBytes ≤ b ∨ b + v.tensorBytes ≤ a

theorem SameShape.refl (v : DFlashArchiveView) : SameShape v v := ⟨rfl, rfl, rfl⟩

theorem SameShape.tensorBytes_eq {v v' : DFlashArchiveView} (h : SameShape v v') : v'.tensorBytes = v.tensorBytes := by
  rw [← h.eq]
  rfl

theorem SameShape.trans {v v' v'' : DFlashArchiveView} (h : SameShape v v') (h' : SameShape v' v'') :
    SameShape v v'' := by
  refine ⟨h'.keys.trans h.keys, h'.values.trans h.values, ?_⟩
  have heq := h.eq
  rw [← h'.eq] at heq
  exact heq

/-- A tensor is placed at the offset, which goes on behind it. -/
theorem Placing.insert {v v' : DFlashArchiveView} {offset : ℕ} {p : Bool × ℕ} (h : Placing v offset)
    (hbytes : v'.tensorBytes = v.tensorBytes) (hp : v'.place p = some offset)
    (hothers : ∀ q, q ≠ p → v'.place q = v.place q) : Placing v' (offset + v.tensorBytes) := by
  have hold : ∀ q a, q ≠ p → v'.place q = some a → a + v.tensorBytes ≤ offset := by
    intro q a hq ha
    rw [hothers q hq] at ha
    exact h.before q a ha
  constructor
  · intro q a ha
    rw [hbytes]
    rcases eq_or_ne q p with rfl | hq
    · rw [← Option.some.inj (hp.symm.trans ha)]
    · exact (hold q a hq ha).trans (Nat.le_add_right ..)
  · intro q r a b hne ha hb
    rw [hbytes]
    rcases eq_or_ne q p with rfl | hq
    · right
      rw [← Option.some.inj (hp.symm.trans ha)]
      exact hold r b hne.symm hb
    · rcases eq_or_ne r p with rfl | hr
      · left
        rw [← Option.some.inj (hp.symm.trans hb)]
        exact hold q a hq ha
      · rw [hothers q hq] at ha
        rw [hothers r hr] at hb
        exact h.disjoint q r a b hne ha hb

theorem Placing.skip {v : DFlashArchiveView} {offset : ℕ} (h : Placing v offset) (n : ℕ) : Placing v (offset + n) :=
  ⟨fun p a ha => (h.before p a ha).trans (Nat.le_add_right ..), h.disjoint⟩

/-! ## The second pass -/

theorem placeEntry_spec {v : DFlashArchiveView} {offset : ℕ} {e : KvMemArchiveStateEntry} {r : ℕ × DFlashArchiveView}
    (hplacing : Placing v offset) (h : placeEntry (offset, v) e = .ok r) :
    r.1 = offset + e.bytes.toNat ∧ SameShape v r.2 ∧ Placing r.2 r.1 := by
  unfold placeEntry at h
  dsimp only at h
  split_ifs at h with hkey hfits hvalue hfits
  · obtain rfl := Except.ok.inj h
    have hlt := (List.getElem?_eq_some_iff.mp hfits.1).1
    refine ⟨rfl, ⟨List.length_set, rfl, rfl⟩, ?_⟩
    rw [hfits.2]
    refine hplacing.insert (p := (false, e.index.toNat)) rfl ?_ ?_
    · simp [DFlashArchiveView.place, hlt]
    · rintro ⟨which, layer⟩ hne
      cases which with
      | true => rfl
      | false =>
          have hlayer : e.index.toNat ≠ layer := fun heq => hne (by rw [heq])
          simp [DFlashArchiveView.place, List.getElem?_set_ne hlayer]
  · obtain rfl := Except.ok.inj h
    have hlt := (List.getElem?_eq_some_iff.mp hfits.1).1
    refine ⟨rfl, ⟨rfl, List.length_set, rfl⟩, ?_⟩
    rw [hfits.2]
    refine hplacing.insert (p := (true, e.index.toNat)) rfl ?_ ?_
    · simp [DFlashArchiveView.place, hlt]
    · rintro ⟨which, layer⟩ hne
      cases which with
      | false => rfl
      | true =>
          have hlayer : e.index.toNat ≠ layer := fun heq => hne (by rw [heq])
          simp [DFlashArchiveView.place, List.getElem?_set_ne hlayer]
  · obtain rfl := Except.ok.inj h
    exact ⟨rfl, .refl v, hplacing.skip _⟩

/-- The bytes that a table says the payload has. -/
def tableBytes (entries : List KvMemArchiveStateEntry) : ℕ := (entries.map fun e => e.bytes.toNat).sum

theorem placeEntries_spec {entries : List KvMemArchiveStateEntry} {v : DFlashArchiveView} {offset : ℕ}
    {r : ℕ × DFlashArchiveView} (hplacing : Placing v offset) (h : entries.foldlM placeEntry (offset, v) = .ok r) :
    r.1 = offset + tableBytes entries ∧ SameShape v r.2 ∧ Placing r.2 r.1 := by
  induction entries generalizing v offset with
  | nil =>
      obtain rfl := Except.ok.inj h
      exact ⟨rfl, .refl v, hplacing⟩
  | cons e entries ih =>
      rw [List.foldlM_cons] at h
      obtain ⟨⟨next, v'⟩, hstep, hrest⟩ := Except.bind_eq_ok.mp h
      obtain ⟨hnext, hshape, hplacing'⟩ := placeEntry_spec hplacing hstep
      obtain ⟨hend, hshape', hplaced⟩ := ih hplacing' hrest
      refine ⟨?_, hshape.trans hshape', hplaced⟩
      rw [hend]
      dsimp only at hnext
      rw [hnext, Nat.add_assoc]
      rfl

theorem stateBytesFrom_eq {entries : List KvMemArchiveStateEntry} {total n : ℕ}
    (h : stateBytesFrom total entries = .ok n) : n = total + tableBytes entries := by
  induction entries generalizing total with
  | nil =>
      obtain rfl := Except.ok.inj h
      rfl
  | cons e entries ih =>
      unfold stateBytesFrom at h
      split_ifs at h
      rw [ih h, Nat.add_assoc]
      rfl

/-! ## The view -/

/-- A view that the restore path may follow. -/
structure DFlashArchiveView.InBounds (v : DFlashArchiveView) (payloadBytes : ℕ) : Prop where
  /-- The tensors of every layer are placed, and no others. -/
  placed : ∀ which layer, layer < v.count ↔ ∃ a, v.place (which, layer) = some a
  inside : ∀ p a, v.place p = some a → a + v.tensorBytes ≤ payloadBytes
  disjoint : ∀ p q a b, p ≠ q → v.place p = some a → v.place q = some b →
    a + v.tensorBytes ≤ b ∨ b + v.tensorBytes ≤ a
  /-- `tensor_bytes` does not wrap. -/
  tensorBytes_lt : v.tensorBytes < 2 ^ 64
  rows_le_next : v.rows ≤ v.nextPosition
  rows_le_window : v.rows ≤ v.window
  rows_le_rope : v.rows ≤ v.ropeNext
  /-- The fields are `uint32_t`, so that this sum does not wrap as a `uint64_t`. -/
  block_le : v.ropeNext + v.blockSize ≤ v.maxPosition
  maxPosition_lt : v.maxPosition < 2 ^ 32
  next_lt : v.nextPosition < 2 ^ 64

variable {parse : List Byte → Except String Json} {state : KvMemArchiveState}

theorem number_le {j : Json} {name : String} {limit n : ℕ} (h : number j name limit = .ok n) : n ≤ limit := by
  unfold number at h
  obtain ⟨value, -, h⟩ := Except.bind_eq_ok.mp h
  cases value with
  | unsigned v =>
      obtain ⟨u, hlimit, h⟩ := Except.bind_eq_ok.mp h
      obtain rfl := Except.ok.inj h
      exact of_decide_eq_true (require_eq_ok hlimit)
  | _ => cases h

theorem place_eq_of_all {l : List (Option ℕ)} (h : none ∉ l) (layer : ℕ) :
    layer < l.length ↔ ∃ a, (l[layer]?).join = some a := by
  constructor
  · intro hlt
    cases ha : l[layer] with
    | none => exact absurd (ha ▸ List.getElem_mem hlt) h
    | some a => exact ⟨a, by rw [List.getElem?_eq_getElem hlt, ha]; rfl⟩
  · rintro ⟨a, ha⟩
    by_contra hge
    rw [List.getElem?_eq_none (Nat.not_lt.mp hge)] at ha
    cases ha

theorem place_replicate (v : DFlashArchiveView) (n : ℕ) (hk : v.keys = List.replicate n none)
    (hv : v.values = List.replicate n none) (p : Bool × ℕ) : v.place p = none := by
  obtain ⟨which, layer⟩ := p
  cases which with
  | false =>
      show (v.keys[layer]?).join = none
      rw [hk, List.getElem?_replicate]
      split <;> rfl
  | true =>
      show (v.values[layer]?).join = none
      rw [hv, List.getElem?_replicate]
      split <;> rfl

theorem readMetadata_inBounds {j : Json} {v : DFlashArchiveView} (h : readMetadata state j = .ok v)
    (hpayload : tableBytes state.entries = state.payload.length) : v.InBounds state.payload.length := by
  unfold readMetadata at h
  obtain ⟨version, -, h⟩ := Except.bind_eq_ok.mp h
  obtain ⟨_, -, h⟩ := Except.bind_eq_ok.mp h
  obtain ⟨value, -, h⟩ := Except.bind_eq_ok.mp h
  obtain ⟨identity, -, h⟩ := Except.bind_eq_ok.mp h
  obtain ⟨_, -, h⟩ := Except.bind_eq_ok.mp h
  obtain ⟨nextPosition, hnext, h⟩ := Except.bind_eq_ok.mp h
  obtain ⟨rows, hrows, h⟩ := Except.bind_eq_ok.mp h
  obtain ⟨ropeNext, -, h⟩ := Except.bind_eq_ok.mp h
  obtain ⟨layers, -, h⟩ := Except.bind_eq_ok.mp h
  obtain ⟨kvHeads, hheads, h⟩ := Except.bind_eq_ok.mp h
  obtain ⟨headDim, hdim, h⟩ := Except.bind_eq_ok.mp h
  obtain ⟨window, -, h⟩ := Except.bind_eq_ok.mp h
  obtain ⟨maxPosition, hmax, h⟩ := Except.bind_eq_ok.mp h
  obtain ⟨blockSize, -, h⟩ := Except.bind_eq_ok.mp h
  obtain ⟨_, -, h⟩ := Except.bind_eq_ok.mp h
  obtain ⟨_, hpositions, h⟩ := Except.bind_eq_ok.mp h
  obtain ⟨placed, hplace, h⟩ := Except.bind_eq_ok.mp h
  obtain ⟨_, hall, h⟩ := Except.bind_eq_ok.mp h
  obtain rfl := Except.ok.inj h
  obtain ⟨-, hle, hwindow, hrope, hblock, -⟩ := of_decide_eq_true (require_eq_ok hpositions)
  obtain ⟨hkeys, hvalues⟩ := of_decide_eq_true (require_eq_ok hall)
  -- No tensor is placed when the second pass begins.
  have hnone := fun p => place_replicate
    { identity, nextPosition, rows, ropeNext, layers, kvHeads, headDim, window, maxPosition, blockSize,
      keys := List.replicate (if rows ≠ 0 then layers else 0) none,
      values := List.replicate (if rows ≠ 0 then layers else 0) none } _ rfl rfl p
  have hplacing : Placing _ 0 :=
    ⟨fun p a ha => absurd ((hnone p).symm.trans ha) nofun, fun p q a b _ ha => absurd ((hnone p).symm.trans ha) nofun⟩
  obtain ⟨hend, hshape, hplaced⟩ := placeEntries_spec hplacing hplace
  have hfield {α : Type} (field : DFlashArchiveView → α) := congrArg field hshape.eq
  have hcount : placed.2.count = if rows ≠ 0 then layers else 0 := by
    unfold DFlashArchiveView.count
    rw [show placed.2.rows = rows from hfield (·.rows), show placed.2.layers = layers from hfield (·.layers)]
  rw [Nat.zero_add, hpayload] at hend
  constructor
  · intro which layer
    rw [hcount]
    cases which with
    | false =>
        have hlength : placed.2.keys.length = _ := hshape.keys.trans List.length_replicate
        rw [← hlength]
        exact place_eq_of_all hkeys layer
    | true =>
        have hlength : placed.2.values.length = _ := hshape.values.trans List.length_replicate
        rw [← hlength]
        exact place_eq_of_all hvalues layer
  · intro p a ha
    exact (hplaced.before p a ha).trans hend.le
  · exact hplaced.disjoint
  · have hbytes : placed.2.tensorBytes = rows * kvHeads * headDim * 4 := hshape.tensorBytes_eq
    have hle := Nat.mul_le_mul (Nat.mul_le_mul (number_le hrows) (number_le hheads)) (number_le hdim)
    rw [hbytes]
    omega
  · rwa [show placed.2.rows = rows from hfield (·.rows),
      show placed.2.nextPosition = nextPosition from hfield (·.nextPosition)]
  · rwa [show placed.2.rows = rows from hfield (·.rows), show placed.2.window = window from hfield (·.window)]
  · rwa [show placed.2.rows = rows from hfield (·.rows), show placed.2.ropeNext = ropeNext from hfield (·.ropeNext)]
  · rwa [show placed.2.ropeNext = ropeNext from hfield (·.ropeNext),
      show placed.2.blockSize = blockSize from hfield (·.blockSize),
      show placed.2.maxPosition = maxPosition from hfield (·.maxPosition)]
  · rw [show placed.2.maxPosition = maxPosition from hfield (·.maxPosition)]
    exact Nat.lt_of_le_pred (Nat.two_pow_pos 32) (number_le hmax)
  · rw [show placed.2.nextPosition = nextPosition from hfield (·.nextPosition)]
    exact Nat.lt_of_le_pred (Nat.two_pow_pos 64) (number_le hnext)

/-- **A view is in bounds.**  Whatever table and metadata an archive has: if it is read,
each layer has its two tensors inside the payload and apart from all others. -/
theorem dflashView_inBounds (parse : List Byte → Except String Json) (state : KvMemArchiveState)
    {v : DFlashArchiveView} (h : readDflashArchive parse state = .ok (some v)) :
    v.InBounds state.payload.length := by
  unfold readDflashArchive at h
  obtain ⟨expect, hexpect, h⟩ := Except.bind_eq_ok.mp h
  obtain ⟨_, hpayload, h⟩ := Except.bind_eq_ok.mp h
  obtain ⟨scan, -, h⟩ := Except.bind_eq_ok.mp h
  have hlength : expect = state.payload.length := by simpa using require_eq_ok hpayload
  have htable := stateBytesFrom_eq hexpect
  rw [Nat.zero_add, hlength] at htable
  split_ifs at h
  · obtain ⟨_, -, h⟩ := Except.bind_eq_ok.mp h
    cases h
  · obtain ⟨j, -, h⟩ := Except.bind_eq_ok.mp h
    obtain ⟨view, hview, h⟩ := Except.bind_eq_ok.mp h
    obtain rfl := Option.some.inj (Except.ok.inj h)
    exact readMetadata_inBounds hview htable.symm

/-! A draft of one layer, with one row of one number. -/

/-- The fingerprint of its model. -/
def sampleIdentity : String := "0123456789abcdef0123456789abcdef0123456789abcdef0123456789abcdef"

/-- Its metadata, as the ASCII bytes of a text: first `block_size`, then the other fields in the order
of their names. -/
def sampleText : List Byte :=
  [123, 34, 98, 108, 111, 99, 107, 95, 115, 105, 122, 101, 34, 58, 49, 44, 34, 104, 101, 97, 100, 95, 100,
   105, 109, 34, 58, 49, 44, 34, 105, 100, 101, 110, 116, 105, 116, 121, 95, 115, 104, 97, 50, 53, 54, 34,
   58, 34, 48, 49, 50, 51, 52, 53, 54, 55, 56, 57, 97, 98, 99, 100, 101, 102, 48, 49, 50, 51, 52, 53, 54,
   55, 56, 57, 97, 98, 99, 100, 101, 102, 48, 49, 50, 51, 52, 53, 54, 55, 56, 57, 97, 98, 99, 100, 101,
   102, 48, 49, 50, 51, 52, 53, 54, 55, 56, 57, 97, 98, 99, 100, 101, 102, 34, 44, 34, 107, 118, 95, 104,
   101, 97, 100, 115, 34, 58, 49, 44, 34, 108, 97, 121, 101, 114, 115, 34, 58, 49, 44, 34, 109, 97, 120,
   95, 112, 111, 115, 105, 116, 105, 111, 110, 34, 58, 50, 44, 34, 110, 101, 120, 116, 95, 112, 111, 115,
   105, 116, 105, 111, 110, 34, 58, 49, 44, 34, 114, 111, 112, 101, 95, 110, 101, 120, 116, 34, 58, 49, 44,
   34, 114, 111, 119, 115, 34, 58, 49, 44, 34, 118, 101, 114, 115, 105, 111, 110, 34, 58, 49, 44, 34, 119,
   105, 110, 100, 111, 119, 34, 58, 49, 125]

/-- The same, as a value. -/
def sampleMetadata : Json :=
  .object [("block_size", .unsigned 1), ("head_dim", .unsigned 1), ("identity_sha256", .string sampleIdentity),
    ("kv_heads", .unsigned 1), ("layers", .unsigned 1), ("max_position", .unsigned 2), ("next_position", .unsigned 1),
    ("rope_next", .unsigned 1), ("rows", .unsigned 1), ("version", .unsigned 1), ("window", .unsigned 1)]

/-- A reader that is given this text only. -/
def sampleParse (_ : List Byte) : Except String Json := .ok sampleMetadata

/-- The state, with the tensors in front of the metadata. -/
def sampleState : KvMemArchiveState where
  position := 1
  kvmemRegisteredPos := 1
  mtpPrefixLen := 0
  entries := [⟨dflashV, 0, 4⟩, ⟨dflashRawK, 0, 4⟩, ⟨dflashMetadata, 0, 219⟩]
  payload := [0, 0, 128, 63, 0, 0, 0, 64] ++ sampleText

set_option maxRecDepth 4000 in
theorem dflashView_inBounds_sample :
    ({ identity := sampleIdentity, nextPosition := 1, rows := 1, ropeNext := 1, layers := 1, kvHeads := 1,
       headDim := 1, window := 1, maxPosition := 2, blockSize := 1, keys := [some 4], values := [some 0] } :
      DFlashArchiveView).InBounds sampleState.payload.length :=
  dflashView_inBounds sampleParse sampleState rfl

end Qw3.Archive
