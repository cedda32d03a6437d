import Qw3.Gguf.Format

/-!
# Reading a GGUF file

* `Cursor`, `readScalar`, `readString`, `skip`, `skipArrayPayload`, `skipArray`,
  `readValue` — the source's (`gguf.cpp`).
* `input` — what a cursor over a file has left, and which cursors are sound.
* `reads_readValue` — a value is read exactly where it stands, in full when its type
  is known.

Memory is read through `memory`, which fails outside of the file.  `skipArray` may
descend only `fuel` arrays deep.
-/

namespace Qw3.Gguf

/-- `Cursor`. -/
structure Cursor where
  data : List Byte
  size : BitVec 64
  pos : BitVec 64

/-- What reads from a cursor. -/
abbrev Parser := StateT Cursor (Except Stop)

/-- A step that may throw and reads nothing. -/
def lift {α : Type} (x : Except Stop α) : Parser α := fun c => x.map fun a => (a, c)

/-- A check that throws. -/
def throwIf (bad : Prop) [Decidable bad] (what : String) : Parser Unit :=
  if bad then throw (.throws what) else pure ()

/-- `require`. -/
def require (n : BitVec 64) : Parser Unit := fun c =>
  if n > c.size - c.pos then .error (.throws "truncated GGUF file") else .ok ((), c)

/-- The `n` bytes of memory at the cursor. -/
def memory (n : BitVec 64) : Parser (List Byte) := fun c =>
  if c.pos.toNat + n.toNat ≤ c.data.length then .ok ((c.data.drop c.pos.toNat).take n.toNat, c)
  else .error .fault

/-- `pos_ += n`. -/
def advance (n : BitVec 64) : Parser Unit := fun c => .ok ((), { c with pos := c.pos + n })

/-- The `n` bytes at the cursor, which moves past them. -/
def takeBytes (n : BitVec 64) : Parser (List Byte) := do
  require n
  let b ← memory n
  advance n
  return b

/-- `read_scalar`, of a type of `w` bits. -/
def readScalar (w : ℕ) : Parser (BitVec w) := do
  let b ← takeBytes (BitVec.ofNat 64 (w / 8))
  return BitVec.ofNat w (ofLittleEndian b)

/-- `read_string`. -/
def readString : Parser (List Byte) := do
  let len ← readScalar 64
  throwIf (len.toNat > maxString) "GGUF string is too large"
  takeBytes len

/-- `skip`. -/
def skip (n : BitVec 64) : Parser Unit := do
  require n
  advance n

/-- `skip_array_payload`, over `skip_array`. -/
def skipArrayPayload (skipArray : Parser Unit) (elemType : GgufValueType) (count : BitVec 64) :
    Parser Unit := do
  if elemType = .string then
    let _ ← times readString count.toNat
    return ()
  else if elemType = .array then
    let _ ← times skipArray count.toNat
    return ()
  else
    let elemSize ← lift elemType.scalarSize
    throwIf (count > BitVec.allOnes 64 / elemSize) "GGUF array size overflow"
    skip (count * elemSize)

/-- `skip_array`. -/
def skipArray : ℕ → Parser Unit
  | 0 => throw .tooDeep
  | fuel + 1 => do
      let elemType ← readScalar 32
      let count ← readScalar 64
      skipArrayPayload (skipArray fuel) (.ofCode elemType) count

/-- `read_value`. -/
def readValue (fuel : ℕ) (type : GgufValueType) : Parser GgufValue :=
  match type with
  | .uint8 => do
      let x ← readScalar 8
      return { type := .uint8, unsignedValue := x.setWidth 64 }
  | .uint16 => do
      let x ← readScalar 16
      return { type := .uint16, unsignedValue := x.setWidth 64 }
  | .uint32 => do
      let x ← readScalar 32
      return { type := .uint32, unsignedValue := x.setWidth 64 }
  | .uint64 => do
      let x ← readScalar 64
      return { type := .uint64, unsignedValue := x.setWidth 64 }
  | .int8 => do
      let x ← readScalar 8
      return { type := .int8, signedValue := x.signExtend 64 }
  | .int16 => do
      let x ← readScalar 16
      return { type := .int16, signedValue := x.signExtend 64 }
  | .int32 => do
      let x ← readScalar 32
      return { type := .int32, signedValue := x.signExtend 64 }
  | .int64 => do
      let x ← readScalar 64
      return { type := .int64, signedValue := x.signExtend 64 }
  | .float32 => do
      let x ← readScalar 32
      return { type := .float32, floatValue := .ofFloat x }
  | .float64 => do
      let x ← readScalar 64
      return { type := .float64, floatValue := .ofDouble x }
  | .bool => do
      let x ← readScalar 8
      return { type := .bool, boolValue := x ≠ 0 }
  | .string => do
      let s ← readString
      return { type := .string, stringValue := s }
  | .array => do
      let elemType ← readScalar 32
      let count ← readScalar 64
      if GgufValueType.ofCode elemType = .string then
        let ss ← times readString count.toNat
        return { type := .array, stringArray := ss }
      else
        skipArrayPayload (skipArray fuel) (.ofCode elemType) count
        return { type := .array }
  | .unknown code => return { type := .unknown code }

/-! ## The cursor -/

/-- A cursor over a file. -/
def input (data : List Byte) : Input Cursor Stop Byte where
  rest c := c.data.drop c.pos.toNat
  Valid c := c.data = data ∧ c.size.toNat = data.length ∧ data.length < 2 ^ 63 ∧
    c.pos.toNat ≤ data.length
  Rejects e := e.Thrown

variable {data : List Byte} {n : ℕ}

theorem rejects (what : String) : (input data).Rejects (.throws what) := trivial

/-- What `require` lets pass is left. -/
theorem require_iff {c : Cursor} (h : (input data).Valid c) (k : BitVec 64) :
    k > c.size - c.pos ↔ ((input data).rest c).length < k.toNat := by
  obtain ⟨hdata, hsize, hsmall, hpos⟩ := h
  have hleft : (c.size - c.pos).toNat = data.length - c.pos.toNat := by
    rw [BitVec.toNat_sub, hsize]
    omega
  change (c.size - c.pos).toNat < k.toNat ↔ (c.data.drop c.pos.toNat).length < k.toNat
  rw [hleft, List.length_drop, hdata]

/-- Moving on within what is left. -/
theorem valid_advance {c : Cursor} (h : (input data).Valid c) {k : BitVec 64}
    (hk : k.toNat ≤ ((input data).rest c).length) :
    (input data).Valid { c with pos := c.pos + k } ∧
      (input data).rest { c with pos := c.pos + k } = ((input data).rest c).drop k.toNat := by
  obtain ⟨hdata, hsize, hsmall, hpos⟩ := h
  change k.toNat ≤ (c.data.drop c.pos.toNat).length at hk
  rw [List.length_drop, hdata] at hk
  have hmove : (c.pos + k).toNat = c.pos.toNat + k.toNat := by
    rw [BitVec.toNat_add]
    omega
  refine ⟨⟨hdata, hsize, hsmall, ?_⟩, ?_⟩
  · change (c.pos + k).toNat ≤ data.length
    omega
  · change c.data.drop (c.pos + k).toNat = (c.data.drop c.pos.toNat).drop k.toNat
    rw [hmove, List.drop_drop]

/-- Reading either takes what is left or throws; it stays inside of the file. -/
theorem run_takeBytes {c : Cursor} (h : (input data).Valid c) (k : BitVec 64) :
    (takeBytes k).run c = if ((input data).rest c).length < k.toNat then
        .error (.throws "truncated GGUF file")
      else .ok (((input data).rest c).take k.toNat, { c with pos := c.pos + k }) := by
  have hrequire := require_iff h k
  have hrun : (takeBytes k).run c = (require k c).bind fun p => (memory k p.2).bind fun q =>
      (advance k q.2).bind fun r => .ok (q.1, r.2) := rfl
  rw [hrun, require]
  split_ifs with hk hlen hlen
  · rfl
  · exact absurd (hrequire.mp hk) hlen
  · exact absurd (hrequire.mpr hlen) hk
  · have hmemory : c.pos.toNat + k.toNat ≤ c.data.length := by
      obtain ⟨hdata, -, -, hpos⟩ := h
      change ¬ (c.data.drop c.pos.toNat).length < k.toNat at hlen
      rw [List.length_drop] at hlen
      rw [← hdata] at hpos
      omega
    change (memory k c).bind _ = _
    rw [memory, if_pos hmemory]
    rfl

theorem reads_takeBytes (k : BitVec 64) :
    Reads (input data) n (fun a b => a = b ∧ b.length = k.toNat) (takeBytes k) where
  sound := by
    intro c hc _
    rw [run_takeBytes hc]
    split_ifs with hlen
    · exact Or.inl ⟨_, rejects _, rfl⟩
    · obtain ⟨hvalid, hrest⟩ := valid_advance hc (not_lt.mp hlen)
      refine Or.inr ⟨_, _, _, rfl, hvalid, ⟨rfl, ?_⟩, ?_⟩
      · rw [List.length_take]
        omega
      · rw [hrest, List.take_append_drop]
  complete := by
    rintro c a b t hc - ⟨rfl, hlen⟩ hrest
    have hle : k.toNat ≤ ((input data).rest c).length := by
      rw [hrest, List.length_append]
      omega
    obtain ⟨hvalid, hdrop⟩ := valid_advance hc hle
    refine ⟨_, ?_, hvalid, ?_⟩
    · rw [run_takeBytes hc, if_neg (not_lt.mpr hle), hrest, List.take_left' hlen]
    · rw [hdrop, hrest, List.drop_left' hlen]

theorem reads_skip (k : BitVec 64) :
    Reads (input data) n (fun _ b => b.length = k.toNat) (skip k) where
  sound := by
    intro c hc hn
    have hrun : (skip k).run c = (require k c).bind fun p => advance k p.2 := rfl
    rw [hrun, require]
    split_ifs with hk
    · exact Or.inl ⟨_, rejects _, rfl⟩
    · have hlen := not_lt.mp fun h => hk ((require_iff hc k).mpr h)
      obtain ⟨hvalid, hrest⟩ := valid_advance hc hlen
      refine Or.inr ⟨(), ((input data).rest c).take k.toNat, _, rfl, hvalid, ?_, ?_⟩
      · rw [List.length_take]
        omega
      · rw [hrest, List.take_append_drop]
  complete := by
    rintro c _ b t hc - hlen hrest
    have hle : k.toNat ≤ ((input data).rest c).length := by
      rw [hrest, List.length_append]
      omega
    have hrun : (skip k).run c = (require k c).bind fun p => advance k p.2 := rfl
    obtain ⟨hvalid, hdrop⟩ := valid_advance hc hle
    refine ⟨_, ?_, hvalid, ?_⟩
    · rw [hrun, require, if_neg fun h => not_lt.mpr hle ((require_iff hc k).mp h)]
      rfl
    · rw [hdrop, hrest, List.drop_left' hlen]

theorem reads_lift {α : Type} {x : Except Stop α} (hx : ∀ e, x = .error e → (input data).Rejects e) :
    Reads (input data) n (fun a b => x = .ok a ∧ b = []) (lift x) where
  sound := by
    intro c hc _
    cases x with
    | error e => exact Or.inl ⟨e, hx e rfl, rfl⟩
    | ok a => exact Or.inr ⟨a, [], c, rfl, hc, ⟨rfl, rfl⟩, rfl⟩
  complete := by
    rintro c a _ t hc - ⟨rfl, rfl⟩ hrest
    exact ⟨c, rfl, hc, hrest⟩

/-! ## Words, strings and arrays -/

theorem reads_scalar (count w : ℕ) (hw : w = 8 * count) (hsmall : count < 2 ^ 64) :
    Reads (input data) n (fun x b => b = littleEndian count x) (readScalar w) := by
  refine ((reads_takeBytes _).map _).congr ?_
  intro x b _
  have hcount : (BitVec.ofNat 64 (w / 8)).toNat = count := by
    rw [hw, Nat.mul_div_cancel_left _ (by decide), BitVec.toNat_ofNat, Nat.mod_eq_of_lt hsmall]
  rw [hcount]
  constructor
  · rintro ⟨a, ⟨rfl, hlen⟩, rfl⟩
    rw [← hlen]
    exact (littleEndian_ofNat (by omega)).symm
  · rintro rfl
    exact ⟨_, ⟨rfl, length_littleEndian _ _⟩, (ofNat_littleEndian (by omega) x).symm⟩

theorem reads_string : Reads (input data) n StringHolds readString := by
  have hlen : ∀ len : BitVec 64, Reads (input data) n
      (fun s b => len.toNat ≤ maxString ∧ s = b ∧ b.length = len.toNat)
      (do
        throwIf (len.toNat > maxString) "GGUF string is too large"
        takeBytes len) := by
    intro len
    refine ((Reads.throwIf (len.toNat > maxString) (rejects _)).andThen fun _ =>
      reads_takeBytes len).congr ?_
    intro s b _
    constructor
    · rintro ⟨-, b₁, b₂, ⟨hle, rfl⟩, ⟨rfl, hb⟩, rfl⟩
      exact ⟨not_lt.mp hle, rfl, hb⟩
    · rintro ⟨hle, rfl, hb⟩
      exact ⟨(), [], s, ⟨not_lt.mpr hle, rfl⟩, ⟨rfl, hb⟩, rfl⟩
  refine ((reads_scalar 8 64 rfl (by decide)).andThen hlen).congr ?_
  intro s b _
  constructor
  · rintro ⟨len, b₁, b₂, rfl, ⟨hle, rfl, hb⟩, rfl⟩
    refine ⟨hb.trans_le hle, ?_⟩
    rw [hb, BitVec.ofNat_toNat, BitVec.setWidth_eq]
  · rintro ⟨hle, rfl⟩
    have hsmall : (BitVec.ofNat 64 s.length).toNat = s.length := by
      rw [BitVec.toNat_ofNat]
      exact Nat.mod_eq_of_lt (lt_of_le_of_lt hle (by decide))
    exact ⟨_, _, s, rfl, ⟨hsmall.trans_le hle, rfl, hsmall.symm⟩, rfl⟩

variable {elem : GgufValueType}

theorem scalarSize_error {e : Stop} (h : elem.scalarSize = .error e) :
    (input data).Rejects e := by
  cases elem with
  | unknown code =>
      rw [← Except.error.inj h]
      exact rejects _
  | _ => cases h

theorem known_iff_scalarSize :
    elem.Known ↔ ∃ size, elem.scalarSize = .ok size := by
  cases elem with
  | unknown code => exact ⟨False.elim, fun ⟨_, h⟩ => nomatch h⟩
  | _ => exact ⟨fun _ => ⟨_, rfl⟩, fun _ => trivial⟩

theorem scalarSize_ne_zero {size : BitVec 64}
    (h : elem.scalarSize = .ok size) (hstring : elem ≠ .string) (harray : elem ≠ .array) :
    size ≠ 0 := by
  rintro rfl
  cases elem with
  | string => exact hstring rfl
  | array => exact harray rfl
  | unknown code => cases h
  | _ => exact absurd (Except.ok.inj h) (by decide)

/-- The overflow check of an array of scalars. -/
theorem fits_iff {count size : BitVec 64} (hsize : size ≠ 0) :
    ¬ count > BitVec.allOnes 64 / size ↔ count.toNat * size.toNat < 2 ^ 64 := by
  have hpos : 0 < size.toNat := Nat.pos_of_ne_zero fun h => hsize (BitVec.eq_of_toNat_eq h)
  rw [gt_iff_lt, BitVec.lt_def, BitVec.toNat_udiv, BitVec.toNat_allOnes, not_lt,
    Nat.le_div_iff_mul_le hpos]
  omega

theorem elements_scalar {size : BitVec 64} {count : ℕ} {b : List Byte}
    (hsize : elem.scalarSize = .ok size) (hpos : size ≠ 0) :
    Elements elem count b ↔ b.length = count * size.toNat := by
  have hone : ∀ b : List Byte, (∃ _ : Unit, b.length = size.toNat) ↔
      ∃ v, v.type = elem ∧ Holds v b := by
    intro b
    rw [← exists_scalar hsize hpos]
    exact ⟨fun ⟨_, h⟩ => h, fun h => ⟨(), h⟩⟩
  rw [← elements_iff hone, listed_length]

theorem reads_payload {skipArray : Parser Unit} {count : BitVec 64}
    (hn : n < 2 ^ 64)
    (harray : Reads (input data) n (fun _ b => ∃ v, v.type = .array ∧ Holds v b) skipArray) :
    Reads (input data) n (fun _ b => elem.Known ∧ Elements elem count.toNat b)
      (skipArrayPayload skipArray elem count) := by
  unfold skipArrayPayload
  split_ifs with hstring hnested
  · subst hstring
    refine ((reads_string.times count.toNat).map fun _ => ()).congr ?_
    intro u b _
    rw [← elements_iff fun b => exists_string]
    exact ⟨fun ⟨ss, h, _⟩ => ⟨trivial, ss, h⟩, fun ⟨_, ss, h⟩ => ⟨ss, h, rfl⟩⟩
  · subst hnested
    refine ((harray.times count.toNat).map fun _ => ()).congr ?_
    intro u b _
    have hskip : ∀ b, (∃ _ : Unit, ∃ v, v.type = GgufValueType.array ∧ Holds v b) ↔
        ∃ v, v.type = GgufValueType.array ∧ Holds v b := fun b => ⟨fun ⟨_, h⟩ => h, fun h => ⟨(), h⟩⟩
    rw [← elements_iff hskip]
    exact ⟨fun ⟨us, h, _⟩ => ⟨trivial, us, h⟩, fun ⟨_, us, h⟩ => ⟨us, h, rfl⟩⟩
  · refine ((reads_lift fun e => scalarSize_error).andThen fun size =>
      (Reads.throwIf (count > BitVec.allOnes 64 / size) (rejects _)).andThen fun _ =>
        reads_skip (count * size)).congr ?_
    intro u b hb
    constructor
    · rintro ⟨size, _, b₂, ⟨hsize, rfl⟩, ⟨_, _, b₃, ⟨hfits, rfl⟩, hlen, rfl⟩, rfl⟩
      have hpos := scalarSize_ne_zero hsize hstring hnested
      rw [fits_iff hpos] at hfits
      rw [BitVec.toNat_mul, Nat.mod_eq_of_lt hfits] at hlen
      exact ⟨known_iff_scalarSize.mpr ⟨size, hsize⟩, (elements_scalar hsize hpos).mpr hlen⟩
    · rintro ⟨hknown, h⟩
      obtain ⟨size, hsize⟩ := known_iff_scalarSize.mp hknown
      have hpos := scalarSize_ne_zero hsize hstring hnested
      rw [elements_scalar hsize hpos] at h
      have hfits : count.toNat * size.toNat < 2 ^ 64 := by omega
      have hmul : (count * size).toNat = b.length := by
        rw [BitVec.toNat_mul, Nat.mod_eq_of_lt hfits, h]
      exact ⟨size, [], b, ⟨hsize, rfl⟩, ⟨(), [], b, ⟨(fits_iff hpos).mpr hfits, rfl⟩, hmul.symm, rfl⟩,
        rfl⟩

/-- An array is skipped whole.  Each level has a head of twelve bytes, so that as many
levels as there are bytes are enough. -/
theorem reads_skipArray {fuel : ℕ} (hfuel : n < fuel) (hn : n < 2 ^ 64) :
    Reads (input data) n (fun _ b => ∃ v, v.type = .array ∧ Holds v b) (skipArray fuel) := by
  induction fuel generalizing n with
  | zero => exact absurd hfuel (Nat.not_lt_zero n)
  | succ fuel ih =>
      have hhead : ∀ x : BitVec 64, ∀ b, b = littleEndian 8 x → 8 ≤ b.length := by
        rintro x b rfl
        rw [length_littleEndian]
      refine ((reads_scalar 4 32 rfl (by decide)).andThen fun code =>
        Reads.bind hhead (reads_scalar 8 64 rfl (by decide)) fun hle count =>
          reads_payload (by omega) (ih (n := n - 8) (by omega) (by omega))).congr ?_
      intro u b _
      rw [exists_array]
      constructor
      · rintro ⟨code, b₁, b₂, rfl, ⟨count, b₃, pb, rfl, ⟨hknown, h⟩, rfl⟩, rfl⟩
        exact ⟨code, count, pb, hknown, h, rfl⟩
      · rintro ⟨code, count, pb, hknown, h, rfl⟩
        exact ⟨code, _, _, rfl, ⟨count, _, pb, rfl, ⟨hknown, h⟩, rfl⟩, rfl⟩

/-! ## Metadata values -/

/-- A value that is one word. -/
theorem reads_word {type : GgufValueType} (count w : ℕ) (hw : w = 8 * count) (hsmall : count < 2 ^ 64)
    (value : BitVec w → GgufValue) (hknown : type.Known) (htype : ∀ x, (value x).type = type)
    (hvalue : ∀ x, Holds (value x) (littleEndian count x))
    (honly : ∀ v b, Holds v b → v.type = type → ∃ x, b = littleEndian count x ∧ v = value x) :
    Reads (input data) n (fun v b => v.type = type ∧ Taken v b)
      (do
        let x ← readScalar w
        return value x) := by
  refine ((reads_scalar count w hw hsmall).map value).congr ?_
  intro v b _
  constructor
  · rintro ⟨x, rfl, rfl⟩
    exact ⟨htype x, Or.inl (hvalue x)⟩
  · rintro ⟨ht, h | ⟨hunknown, -⟩⟩
    · exact honly v b h ht
    · rw [ht] at hunknown
      exact absurd hknown hunknown

/-- The payload of an array, after its head. -/
theorem reads_array {fuel : ℕ} (hfuel : n < fuel) (hn : n < 2 ^ 64) (code : BitVec 32)
    (count : BitVec 64) :
    Reads (input data) n (ArrayHolds code count)
      (if GgufValueType.ofCode code = .string then do
        let ss ← times readString count.toNat
        return { type := .array, stringArray := ss }
      else do
        skipArrayPayload (skipArray fuel) (.ofCode code) count
        return { type := .array }) := by
  split_ifs with hcode
  · refine ((reads_string.times count.toNat).map _).congr ?_
    intro v b _
    constructor
    · rintro ⟨ss, ⟨hlen, h⟩, rfl⟩
      exact Or.inl ⟨hcode, ss, rfl, hlen, h⟩
    · rintro (⟨-, ss, rfl, hlen, h⟩ | ⟨hne, -⟩)
      · exact ⟨ss, ⟨hlen, h⟩, rfl⟩
      · exact absurd hcode hne
  · refine ((reads_payload hn (reads_skipArray hfuel hn)).map _).congr ?_
    intro v b _
    constructor
    · rintro ⟨-, ⟨hknown, h⟩, rfl⟩
      exact Or.inr ⟨hcode, rfl, hknown, h⟩
    · rintro (⟨hs, -⟩ | ⟨-, rfl, h⟩)
      · exact absurd hs hcode
      · exact ⟨(), h, rfl⟩

theorem reads_readValue {fuel : ℕ} (hfuel : n < fuel) (hn : n < 2 ^ 64) (type : GgufValueType) :
    Reads (input data) n (fun v b => v.type = type ∧ Taken v b) (readValue fuel type) := by
  cases type with
  | uint8 =>
      refine reads_word 1 8 rfl (by decide) _ trivial (fun _ => rfl) .uint8 ?_
      intro v b h ht
      cases h with
      | uint8 x => exact ⟨x, rfl, rfl⟩
      | _ => cases ht
  | int8 =>
      refine reads_word 1 8 rfl (by decide) _ trivial (fun _ => rfl) .int8 ?_
      intro v b h ht
      cases h with
      | int8 x => exact ⟨x, rfl, rfl⟩
      | _ => cases ht
  | uint16 =>
      refine reads_word 2 16 rfl (by decide) _ trivial (fun _ => rfl) .uint16 ?_
      intro v b h ht
      cases h with
      | uint16 x => exact ⟨x, rfl, rfl⟩
      | _ => cases ht
  | int16 =>
      refine reads_word 2 16 rfl (by decide) _ trivial (fun _ => rfl) .int16 ?_
      intro v b h ht
      cases h with
      | int16 x => exact ⟨x, rfl, rfl⟩
      | _ => cases ht
  | uint32 =>
      refine reads_word 4 32 rfl (by decide) _ trivial (fun _ => rfl) .uint32 ?_
      intro v b h ht
      cases h with
      | uint32 x => exact ⟨x, rfl, rfl⟩
      | _ => cases ht
  | int32 =>
      refine reads_word 4 32 rfl (by decide) _ trivial (fun _ => rfl) .int32 ?_
      intro v b h ht
      cases h with
      | int32 x => exact ⟨x, rfl, rfl⟩
      | _ => cases ht
  | float32 =>
      refine reads_word 4 32 rfl (by decide) _ trivial (fun _ => rfl) .float32 ?_
      intro v b h ht
      cases h with
      | float32 x => exact ⟨x, rfl, rfl⟩
      | _ => cases ht
  | bool =>
      refine reads_word 1 8 rfl (by decide) _ trivial (fun _ => rfl) .bool ?_
      intro v b h ht
      cases h with
      | bool x => exact ⟨x, rfl, rfl⟩
      | _ => cases ht
  | uint64 =>
      refine reads_word 8 64 rfl (by decide) _ trivial (fun _ => rfl) .uint64 ?_
      intro v b h ht
      cases h with
      | uint64 x => exact ⟨x, rfl, rfl⟩
      | _ => cases ht
  | int64 =>
      refine reads_word 8 64 rfl (by decide) _ trivial (fun _ => rfl) .int64 ?_
      intro v b h ht
      cases h with
      | int64 x => exact ⟨x, rfl, rfl⟩
      | _ => cases ht
  | float64 =>
      refine reads_word 8 64 rfl (by decide) _ trivial (fun _ => rfl) .float64 ?_
      intro v b h ht
      cases h with
      | float64 x => exact ⟨x, rfl, rfl⟩
      | _ => cases ht
  | string =>
      refine (reads_string.map _).congr ?_
      intro v b _
      constructor
      · rintro ⟨s, h, rfl⟩
        exact ⟨rfl, Or.inl (.string h)⟩
      · rintro ⟨ht, h | ⟨hunknown, -⟩⟩
        · cases h with
          | string h => exact ⟨_, h, rfl⟩
          | _ => cases ht
        · rw [ht] at hunknown
          exact absurd trivial hunknown
  | array =>
      refine ((reads_scalar 4 32 rfl (by decide)).andThen fun code =>
        (reads_scalar 8 64 rfl (by decide)).andThen fun count =>
          reads_array hfuel hn code count).congr ?_
      intro v b _
      constructor
      · rintro ⟨code, _, _, rfl, ⟨count, _, pb, rfl, h, rfl⟩, rfl⟩
        obtain ⟨ht, h⟩ := array_iff.mpr ⟨code, count, pb, h, rfl⟩
        exact ⟨ht, Or.inl h⟩
      · rintro ⟨ht, hv | ⟨hunknown, -⟩⟩
        · obtain ⟨code, count, pb, h, rfl⟩ := array_iff.mp ⟨ht, hv⟩
          exact ⟨code, _, _, rfl, ⟨count, _, pb, rfl, h, rfl⟩, rfl⟩
        · rw [ht] at hunknown
          exact absurd trivial hunknown
  | unknown code =>
      refine (Reads.pure _).congr ?_
      intro v b _
      constructor
      · rintro ⟨rfl, rfl⟩
        exact ⟨rfl, Or.inr ⟨id, rfl, rfl⟩⟩
      · rintro ⟨ht, h | ⟨-, hv, rfl⟩⟩
        · cases h <;> cases ht
        · rw [hv, ht]
          exact ⟨rfl, rfl⟩

end Qw3.Gguf
