import Qw3.Gguf.Cursor

/-!
# Opening a GGUF file

* `GgufFile.new` — the constructor (`gguf.cpp`).
* `reads_readContents` — it reads what stands before the tensor data, and rejects a
  file where that is malformed.
* `ggufParsing` — **when a file is parsed in bounds**: it is rejected, or it is in the
  format and its tensors lie in it.

Memory and the native stack are taken as unlimited: the nesting of arrays, by which
`parse_value` calls itself, is bounded by the bytes of the file alone.
-/

namespace Qw3.Gguf

/-- A file in memory; `off_t` holds its size. -/
structure MappedFile where
  data : List Byte
  small : data.length < 2 ^ 63

/-- What the system has for a path. -/
inductive Opened
  | noFile (why : String)
  | noStat (why : String)
  | noMap (why : String)
  | mapped (file : MappedFile)

/-- `GgufFile::Impl`. -/
structure GgufFile where
  path : String
  size : BitVec 64
  data : List Byte
  version : BitVec 32
  alignment : BitVec 32
  tensorDataOffset : BitVec 64
  metadata : List (List Byte × GgufValue)
  tensors : List GgufTensorInfo
  tensorIndex : List (List Byte × ℕ)
  deriving DecidableEq

/-- `unordered_map::emplace`: the first value of a key stays. -/
def emplace {α : Type} (m : List (List Byte × α)) (e : List Byte × α) : List (List Byte × α) :=
  if (m.lookup e.1).isSome then m else m ++ [e]

/-- `"general.alignment"`. -/
def alignmentKey : List Byte := "general.alignment".toList.map fun c => BitVec.ofNat 8 c.toNat

/-- `get_alignment`. -/
def getAlignment (metadata : List (List Byte × GgufValue)) : BitVec 32 :=
  match metadata.lookup alignmentKey with
  | none => 32
  | some value => value.unsignedValue.setWidth 32

/-- `align_up`. -/
def alignUp (v alignment : BitVec 64) : BitVec 64 :=
  if alignment = 0 then v
  else
    let rem := v % alignment
    if rem = 0 then v else v + (alignment - rem)

/-- One turn of the loop over the metadata. -/
def readEntry (fuel : ℕ) : Parser (List Byte × GgufValue) := do
  let key ← readString
  let type ← readScalar 32
  let value ← readValue fuel (.ofCode type)
  return (key, value)

/-- The loop over the dimensions, with the product so far. -/
def readDims : ℕ → BitVec 64 → Parser (List (BitVec 64) × BitVec 64)
  | 0, elements => return ([], elements)
  | n + 1, elements => do
      let dim ← readScalar 64
      let elements ← lift (checkedMul elements dim)
      let rest ← readDims n elements
      return (dim :: rest.1, rest.2)

/-- One turn of the loop over the tensors. -/
def readTensor : Parser GgufTensorInfo := do
  let name ← readString
  let nDims ← readScalar 32
  throwIf (nDims > 8) "unsupported GGUF tensor rank"
  let dims ← readDims nDims.toNat 1
  let type ← readScalar 32
  let relOffset ← readScalar 64
  let bytes ← lift (ggufTensorTypeSize type dims.2)
  return ⟨name, dims.1, type, relOffset, 0, dims.2, bytes⟩

/-- The constructor up to the tensor data. -/
def readContents (path : String) (fuel : ℕ) : Parser Contents := do
  let magic ← readScalar 32
  throwIf (magic ≠ ggufMagic) ("not a GGUF file: " ++ path)
  let version ← readScalar 32
  throwIf (version ≠ 3) "only GGUF v3 is supported"
  let nTensors ← readScalar 64
  let nMetadata ← readScalar 64
  let entries ← times (readEntry fuel) nMetadata.toNat
  let tensors ← times readTensor nTensors.toNat
  return ⟨version, entries, tensors⟩

/-- `metadata`, filled entry by entry. -/
def Contents.metadata (c : Contents) : List (List Byte × GgufValue) := c.entries.foldl emplace []

/-- `tensor_data_offset`, where the entries end at `pos`. -/
def Contents.dataOffset (c : Contents) (pos : BitVec 64) : BitVec 64 :=
  alignUp pos ((getAlignment c.metadata).setWidth 64)

/-- The check on the place of a tensor. -/
def GgufTensorInfo.PointsOutside (t : GgufTensorInfo) (size dataOffset : BitVec 64) : Prop :=
  dataOffset + t.relOffset > size ∨ t.bytes > size - (dataOffset + t.relOffset)

instance (t : GgufTensorInfo) (size dataOffset : BitVec 64) :
    Decidable (t.PointsOutside size dataOffset) :=
  inferInstanceAs (Decidable (_ ∨ _))

/-- One turn of the last loop. -/
def place (size dataOffset : BitVec 64) (t : GgufTensorInfo) : Except Stop GgufTensorInfo :=
  if t.PointsOutside size dataOffset then
    .error (.throwsFor "GGUF tensor points outside file: " t.name)
  else .ok { t with absOffset := dataOffset + t.relOffset }

/-- The cursor that the constructor begins with. -/
def MappedFile.cursor (file : MappedFile) : Cursor :=
  ⟨file.data, BitVec.ofNat 64 file.data.length, 0⟩

namespace GgufFile

/-- The constructor, for a file in memory.  Nesting needs no more levels than the file
has bytes. -/
def parse (path : String) (file : MappedFile) : Except Stop GgufFile :=
  let size := BitVec.ofNat 64 file.data.length
  match (readContents path (file.data.length + 1)).run file.cursor with
  | .error e => .error e
  | .ok (c, cursor) =>
      let dataOffset := c.dataOffset cursor.pos
      match c.tensors.mapM (place size dataOffset) with
      | .error e => .error e
      | .ok tensors => .ok {
          path, size
          data := file.data
          version := c.version
          alignment := getAlignment c.metadata
          tensorDataOffset := dataOffset
          metadata := c.metadata
          tensors
          tensorIndex := (c.tensors.zipIdx.map fun t => (t.1.name, t.2)).foldl emplace [] }

/-- `GgufFile::GgufFile`. -/
def new (path : String) : Opened → Except Stop GgufFile
  | .noFile why => .error (.throws ("failed to open GGUF: " ++ path ++ ": " ++ why))
  | .noStat why => .error (.throws ("failed to stat GGUF: " ++ path ++ ": " ++ why))
  | .noMap why => .error (.throws ("failed to mmap GGUF: " ++ path ++ ": " ++ why))
  | .mapped file =>
      if file.data = [] then .error (.throws ("empty GGUF: " ++ path)) else parse path file

/-- A file is rejected, or it is in the format, the metadata are its entries and each
tensor lies in it. -/
def InBounds (path : String) (file : MappedFile) : Prop :=
  match new path (.mapped file) with
  | .error e => e.Thrown
  | .ok g => ∃ (c : Contents) (b rest : List Byte), file.data = b ++ rest ∧ c.Holds Holds b ∧
      g.metadata = c.metadata ∧
      g.tensors.map (fun t => { t with absOffset := 0 }) = c.tensors ∧
      ∀ t ∈ g.tensors,
        g.tensorDataOffset.toNat + t.relOffset.toNat + t.bytes.toNat ≤ file.data.length

end GgufFile

/-- What the checks do not see: a type that is not known, and an offset that wraps. -/
def MappedFile.Plain (file : MappedFile) : Prop :=
  ∀ (c : Contents) (b rest : List Byte), file.data = b ++ rest → c.Holds Taken b →
    (∀ t ∈ c.tensors, ¬ t.PointsOutside (BitVec.ofNat 64 file.data.length)
      (c.dataOffset (BitVec.ofNat 64 b.length))) →
    (∀ e ∈ c.entries, e.2.type.Known) ∧
      ∀ t ∈ c.tensors, (c.dataOffset (BitVec.ofNat 64 b.length)).toNat + t.relOffset.toNat < 2 ^ 64

/-! ## What the constructor reads -/

variable {data : List Byte} {n : ℕ}

theorem reads_readEntry {fuel : ℕ} (hfuel : n < fuel) (hn : n < 2 ^ 64) :
    Reads (input data) n (EntryHolds Taken) (readEntry fuel) := by
  refine (reads_string.andThen fun key => (reads_scalar 4 32 rfl (by decide)).andThen fun code =>
    (reads_readValue hfuel hn (.ofCode code)).map fun value => (key, value)).congr ?_
  intro e b _
  constructor
  · rintro ⟨key, kb, _, hkey, ⟨code, _, vb, rfl, ⟨value, ⟨htype, hvalue⟩, rfl⟩, rfl⟩, rfl⟩
    exact ⟨kb, code, vb, hkey, htype.symm, hvalue, rfl⟩
  · rintro ⟨kb, code, vb, hkey, htype, hvalue, rfl⟩
    exact ⟨e.1, kb, _, hkey, ⟨code, _, vb, rfl, ⟨e.2, ⟨htype.symm, hvalue⟩, rfl⟩, rfl⟩, rfl⟩

theorem thrown_of_checkedMul {a b : BitVec 64} {e : Stop} (h : checkedMul a b = .error e) :
    e.Thrown := by
  unfold checkedMul at h
  split_ifs at h
  rw [← Except.error.inj h]
  exact trivial

theorem thrown_of_tensorTypeSize {type : BitVec 32} {elements : BitVec 64} {e : Stop}
    (h : ggufTensorTypeSize type elements = .error e) : e.Thrown := by
  have hblock : ∀ size typeSize, blockSize elements size typeSize = .error e → e.Thrown := by
    intro size typeSize hb
    unfold blockSize at hb
    split_ifs at hb
    · rw [← Except.error.inj hb]
      exact trivial
    · exact thrown_of_checkedMul hb
  unfold ggufTensorTypeSize at h
  split at h <;> first | exact thrown_of_checkedMul h | exact hblock _ _ h | cases h

theorem reads_readDims (count : ℕ) (elements : BitVec 64) :
    Reads (input data) n (fun r b => r.1.length = count ∧
      Listed (fun dim b => b = littleEndian 8 dim) r.1 b ∧
      r.1.foldlM checkedMul elements = .ok r.2) (readDims count elements) := by
  induction count generalizing elements with
  | zero =>
      refine (Reads.pure _).congr ?_
      rintro ⟨dims, product⟩ b _
      constructor
      · rintro ⟨h, rfl⟩
        cases h
        exact ⟨rfl, .nil, rfl⟩
      · rintro ⟨hlen, hdims, hproduct⟩
        cases hdims with
        | nil => exact ⟨by rw [Except.ok.inj hproduct], rfl⟩
        | cons => exact absurd hlen (Nat.succ_ne_zero _)
  | succ count ih =>
      refine ((reads_scalar 8 64 rfl (by decide)).andThen fun dim =>
        (reads_lift fun e => thrown_of_checkedMul).andThen fun elements =>
          (ih elements).map fun rest => (dim :: rest.1, rest.2)).congr ?_
      rintro ⟨dims, product⟩ b _
      constructor
      · rintro ⟨dim, _, _, rfl, ⟨next, _, _, ⟨hmul, rfl⟩, ⟨rest, ⟨hlen, hrest, hproduct⟩, h⟩, rfl⟩, rfl⟩
        cases h
        refine ⟨by rw [List.length_cons, hlen], .cons rfl hrest, ?_⟩
        rw [List.foldlM_cons, hmul]
        exact hproduct
      · rintro ⟨hlen, hdims, hproduct⟩
        cases hdims with
        | nil => exact absurd hlen.symm (Nat.succ_ne_zero _)
        | @cons dim rest _ bs head tail =>
            rw [List.foldlM_cons] at hproduct
            cases hmul : checkedMul elements dim with
            | error e =>
                rw [hmul] at hproduct
                cases hproduct
            | ok next =>
                rw [hmul] at hproduct
                exact ⟨dim, _, bs, head, ⟨next, [], bs, ⟨hmul, rfl⟩,
                  ⟨(rest, product), ⟨Nat.succ.inj hlen, tail, hproduct⟩, rfl⟩, rfl⟩, rfl⟩

theorem reads_readTensor : Reads (input data) n TensorHolds readTensor := by
  refine (reads_string.andThen fun name => (reads_scalar 4 32 rfl (by decide)).andThen fun nDims =>
    (Reads.throwIf _ (rejects _)).andThen fun _ => (reads_readDims nDims.toNat 1).andThen fun dims =>
      (reads_scalar 4 32 rfl (by decide)).andThen fun type =>
        (reads_scalar 8 64 rfl (by decide)).andThen fun relOffset =>
          (reads_lift fun e => thrown_of_tensorTypeSize).map fun bytes =>
            (⟨name, dims.1, type, relOffset, 0, dims.2, bytes⟩ : GgufTensorInfo)).congr ?_
  intro t b _
  constructor
  · rintro ⟨name, nb, _, hname, ⟨nDims, _, _, rfl, ⟨_, _, _, ⟨hrank, rfl⟩, ⟨dims, db, _,
      ⟨hlen, hdims, hproduct⟩, ⟨type, _, _, rfl, ⟨relOffset, _, _, rfl, ⟨bytes, ⟨hbytes, rfl⟩, rfl⟩,
        rfl⟩, rfl⟩, rfl⟩, rfl⟩, rfl⟩, rfl⟩
    refine ⟨nb, db, nDims, hname, BitVec.not_lt.mp hrank, hlen, hdims, hproduct, hbytes, rfl, ?_⟩
    rw [List.append_nil, List.nil_append]
  · rintro ⟨nb, db, nDims, hname, hrank, hlen, hdims, hproduct, hbytes, habs, rfl⟩
    refine ⟨t.name, nb, _, hname, ⟨nDims, _, _, rfl, ⟨(), [], _, ⟨BitVec.not_lt.mpr hrank, rfl⟩,
      ⟨(t.dims, t.elements), db, _, ⟨hlen, hdims, hproduct⟩, ⟨t.type, _, _, rfl,
        ⟨t.relOffset, _, [], rfl, ⟨t.bytes, ⟨hbytes, rfl⟩, ?_⟩, rfl⟩, rfl⟩, rfl⟩, rfl⟩, rfl⟩, ?_⟩
    · rw [← habs]
    · rw [List.append_nil, List.nil_append]

theorem reads_readContents (path : String) {fuel : ℕ} (hfuel : n < fuel) (hn : n < 2 ^ 64) :
    Reads (input data) n (Contents.Holds Taken) (readContents path fuel) := by
  refine ((reads_scalar 4 32 rfl (by decide)).andThen fun magic =>
    (Reads.throwIf _ (rejects _)).andThen fun _ => (reads_scalar 4 32 rfl (by decide)).andThen fun version =>
      (Reads.throwIf _ (rejects _)).andThen fun _ => (reads_scalar 8 64 rfl (by decide)).andThen fun nTensors =>
        (reads_scalar 8 64 rfl (by decide)).andThen fun nMetadata =>
          ((reads_readEntry hfuel hn).times nMetadata.toNat).andThen fun entries =>
            (reads_readTensor.times nTensors.toNat).map fun tensors =>
              (⟨version, entries, tensors⟩ : Contents)).congr ?_
  intro c b _
  constructor
  · rintro ⟨magic, _, _, rfl, ⟨_, _, _, ⟨hmagic, rfl⟩, ⟨version, _, _, rfl, ⟨_, _, _, ⟨hversion, rfl⟩,
      ⟨nTensors, _, _, rfl, ⟨nMetadata, _, _, rfl, ⟨entries, eb, tb, ⟨hentries, heb⟩,
        ⟨tensors, ⟨htensors, htb⟩, rfl⟩, rfl⟩, rfl⟩, rfl⟩, rfl⟩, rfl⟩, rfl⟩, rfl⟩
    refine ⟨nTensors, nMetadata, eb, tb, not_not.mp hversion, hentries, htensors, heb, htb, ?_⟩
    rw [not_not.mp hmagic, List.nil_append, List.nil_append]
  · rintro ⟨nTensors, nMetadata, eb, tb, hversion, hentries, htensors, heb, htb, rfl⟩
    exact ⟨ggufMagic, _, _, rfl, ⟨(), [], _, ⟨not_not.mpr rfl, rfl⟩, ⟨c.version, _, _, rfl, ⟨(), [], _,
      ⟨not_not.mpr hversion, rfl⟩, ⟨nTensors, _, _, rfl, ⟨nMetadata, _, _, rfl,
        ⟨c.entries, eb, tb, ⟨hentries, heb⟩, ⟨c.tensors, ⟨htensors, htb⟩, rfl⟩, rfl⟩, rfl⟩, rfl⟩, rfl⟩,
          rfl⟩, rfl⟩, rfl⟩

/-! ## What is accepted -/

/-- A value that is there in full has a known type. -/
theorem known_of_holds {v : GgufValue} {b : List Byte} (h : Holds v b) : v.type.Known := by
  cases h <;> exact trivial

/-- A file of known types is in the format. -/
theorem holds_of_known {c : Contents} {b : List Byte} (h : c.Holds Taken b)
    (hknown : ∀ e ∈ c.entries, e.2.type.Known) : c.Holds Holds b := by
  obtain ⟨nTensors, nMetadata, eb, tb, hversion, hentries, htensors, heb, htb, rfl⟩ := h
  refine ⟨nTensors, nMetadata, eb, tb, hversion, hentries, htensors, heb.imp ?_, htb, rfl⟩
  rintro e he _ ⟨kb, code, vb, hkey, htype, hv | ⟨hunknown, -⟩, rfl⟩
  · exact ⟨kb, code, vb, hkey, htype, hv, rfl⟩
  · exact absurd (hknown e he) hunknown

theorem known_of_contents {c : Contents} {b : List Byte} (h : c.Holds Holds b) :
    c.Holds Taken b ∧ ∀ e ∈ c.entries, e.2.type.Known := by
  obtain ⟨nTensors, nMetadata, eb, tb, hversion, hentries, htensors, heb, htb, rfl⟩ := h
  refine ⟨⟨nTensors, nMetadata, eb, tb, hversion, hentries, htensors, heb.imp ?_, htb, rfl⟩, ?_⟩
  · rintro e - _ ⟨kb, code, vb, hkey, htype, hv, rfl⟩
    exact ⟨kb, code, vb, hkey, htype, Or.inl hv, rfl⟩
  · intro e he
    obtain ⟨_, _, _, _, -, -, hv, -⟩ := heb.exists_of_mem e he
    exact known_of_holds hv

/-- The last loop. -/
theorem mapM_place (size dataOffset : BitVec 64) (ts : List GgufTensorInfo) :
    ((∃ t ∈ ts, t.PointsOutside size dataOffset) ∧
        ∃ e : Stop, e.Thrown ∧ ts.mapM (place size dataOffset) = .error e) ∨
      (∀ t ∈ ts, ¬ t.PointsOutside size dataOffset) ∧ ts.mapM (place size dataOffset) =
        .ok (ts.map fun t => { t with absOffset := dataOffset + t.relOffset }) := by
  induction ts with
  | nil => exact Or.inr ⟨fun t ht => absurd ht List.not_mem_nil, rfl⟩
  | cons t ts ih =>
      rw [List.mapM_cons]
      by_cases hout : t.PointsOutside size dataOffset
      · rw [place, if_pos hout]
        exact Or.inl ⟨⟨t, List.mem_cons_self, hout⟩, .throwsFor _ t.name, trivial, rfl⟩
      · rw [place, if_neg hout]
        rcases ih with ⟨⟨t', ht', hout'⟩, e, he, hrest⟩ | ⟨hall, hrest⟩
        · rw [hrest]
          exact Or.inl ⟨⟨t', List.mem_cons_of_mem _ ht', hout'⟩, e, he, rfl⟩
        · rw [hrest]
          exact Or.inr ⟨List.forall_mem_cons.mpr ⟨hout, hall⟩, rfl⟩

theorem valid_cursor (file : MappedFile) : (input file.data).Valid file.cursor := by
  have hsmall := file.small
  refine ⟨rfl, ?_, hsmall, Nat.zero_le _⟩
  change (BitVec.ofNat 64 file.data.length).toNat = file.data.length
  rw [BitVec.toNat_ofNat]
  omega

/-- Where a cursor stands that has read `b`. -/
theorem pos_of_rest {data b rest : List Byte} {c : Cursor} (h : (input data).Valid c)
    (hrest : (input data).rest c = rest) (hdata : data = b ++ rest) :
    c.pos = BitVec.ofNat 64 b.length := by
  obtain ⟨hc, -, hsmall, hpos⟩ := h
  change c.data.drop c.pos.toNat = rest at hrest
  have hlen := congrArg List.length hrest
  rw [List.length_drop, hc] at hlen
  have htotal := congrArg List.length hdata
  rw [List.length_append] at htotal
  apply BitVec.eq_of_toNat_eq
  rw [BitVec.toNat_ofNat]
  omega

namespace GgufFile

variable {path : String} {file : MappedFile}

theorem reads_file (path : String) (file : MappedFile) :
    Reads (input file.data) file.data.length (Contents.Holds Taken)
      (readContents path (file.data.length + 1)) :=
  reads_readContents path (Nat.lt_succ_self _) (lt_trans file.small (by decide))

/-- What is accepted has been read, and its tensors have passed the check. -/
theorem parse_sound (path : String) (file : MappedFile) :
    (∃ e, e.Thrown ∧ parse path file = .error e) ∨
      ∃ (c : Contents) (b rest : List Byte) (g : GgufFile), parse path file = .ok g ∧
        file.data = b ++ rest ∧ c.Holds Taken b ∧
        (∀ t ∈ c.tensors, ¬ t.PointsOutside (BitVec.ofNat 64 file.data.length)
          (c.dataOffset (BitVec.ofNat 64 b.length))) ∧
        g.metadata = c.metadata ∧ g.tensorDataOffset = c.dataOffset (BitVec.ofNat 64 b.length) ∧
        g.tensors = c.tensors.map fun t =>
          { t with absOffset := c.dataOffset (BitVec.ofNat 64 b.length) + t.relOffset } := by
  unfold parse
  rcases (reads_file path file).sound file.cursor (valid_cursor file) le_rfl with
    ⟨e, he, hrun⟩ | ⟨c, b, cursor, hrun, hvalid, hc, hdata⟩
  · rw [hrun]
    exact Or.inl ⟨e, he, rfl⟩
  · rw [hrun]
    dsimp only
    rw [pos_of_rest hvalid rfl hdata]
    rcases mapM_place (BitVec.ofNat 64 file.data.length) (c.dataOffset (BitVec.ofNat 64 b.length))
      c.tensors with ⟨-, e, he, hplace⟩ | ⟨hchecks, hplace⟩
    · rw [hplace]
      exact Or.inl ⟨e, he, rfl⟩
    · rw [hplace]
      exact Or.inr ⟨c, b, _, _, rfl, hdata, hc, hchecks, rfl, rfl, rfl⟩

/-- What can be read and passes the check is accepted. -/
theorem parse_complete (path : String) {c : Contents} {b rest : List Byte}
    (hdata : file.data = b ++ rest) (hc : c.Holds Taken b)
    (hchecks : ∀ t ∈ c.tensors, ¬ t.PointsOutside (BitVec.ofNat 64 file.data.length)
      (c.dataOffset (BitVec.ofNat 64 b.length))) : ∃ g, parse path file = .ok g := by
  obtain ⟨cursor, hrun, hvalid, hrest⟩ := (reads_file path file).complete file.cursor c b rest
    (valid_cursor file) le_rfl hc hdata
  unfold parse
  rw [hrun]
  dsimp only
  rw [pos_of_rest hvalid hrest hdata]
  rcases mapM_place (BitVec.ofNat 64 file.data.length) (c.dataOffset (BitVec.ofNat 64 b.length))
    c.tensors with ⟨⟨t, ht, hout⟩, -⟩ | ⟨-, hplace⟩
  · exact absurd hout (hchecks t ht)
  · rw [hplace]
    exact ⟨_, rfl⟩

theorem data_ne_nil {c : Contents} {b rest : List Byte} (hdata : file.data = b ++ rest)
    (hc : c.Holds Taken b) : file.data ≠ [] := by
  obtain ⟨_, _, _, _, -, -, -, -, -, rfl⟩ := hc
  rw [hdata]
  simp [littleEndian]

/-- The extent of a tensor that passes the check, when its offset does not wrap. -/
theorem extent_le {t : GgufTensorInfo} {size dataOffset : BitVec 64}
    (hcheck : ¬ t.PointsOutside size dataOffset)
    (hwrap : dataOffset.toNat + t.relOffset.toNat < 2 ^ 64) :
    dataOffset.toNat + t.relOffset.toNat + t.bytes.toNat ≤ size.toNat := by
  unfold GgufTensorInfo.PointsOutside at hcheck
  rw [not_or, gt_iff_lt, gt_iff_lt, BitVec.not_lt, BitVec.not_lt, BitVec.le_def, BitVec.le_def] at hcheck
  obtain ⟨hoffset, hbytes⟩ := hcheck
  rw [BitVec.toNat_sub_of_le (BitVec.le_def.mpr hoffset)] at hbytes
  rw [BitVec.toNat_add, Nat.mod_eq_of_lt hwrap] at hoffset hbytes
  omega

theorem absOffset_of_holds {c : Contents} {b : List Byte} (h : c.Holds Taken b) (x : BitVec 64) :
    (c.tensors.map fun t => { t with absOffset := x + t.relOffset }).map
      (fun t => { t with absOffset := 0 }) = c.tensors := by
  obtain ⟨_, _, _, _, -, -, -, -, htb, -⟩ := h
  rw [List.map_map]
  apply (List.map_congr_left _).trans (List.map_id _)
  intro t ht
  obtain ⟨_, _, _, _, -, -, -, -, -, -, habs, -⟩ := htb.exists_of_mem t ht
  rw [Function.comp_apply, ← habs]
  rfl

/-- **GGUF files are parsed in bounds** exactly when no accepted entry has an unknown
type and no accepted offset wraps. -/
theorem ggufParsing (path : String) (file : MappedFile) : InBounds path file ↔ file.Plain := by
  constructor
  · intro h c b rest hdata hc hchecks
    obtain ⟨g, hg⟩ := parse_complete path hdata hc hchecks
    have hnew : new path (.mapped file) = .ok g := by
      rw [new, if_neg (data_ne_nil hdata hc), hg]
    unfold InBounds at h
    rw [hnew] at h
    obtain ⟨c', b', rest', hdata', hc', -, -, hextent⟩ := h
    obtain ⟨htaken, hknown⟩ := known_of_contents hc'
    obtain ⟨rfl, rfl⟩ := (reads_file path file).unique (valid_cursor file) le_rfl hc hdata htaken hdata'
    refine ⟨hknown, fun t ht => ?_⟩
    rcases parse_sound path file with ⟨e, -, hparse⟩ |
      ⟨c'', b'', rest'', g', hparse, hdata'', hc'', -, -, hoffset, htensors⟩
    · exact absurd (hg.symm.trans hparse) nofun
    · obtain rfl := Except.ok.inj (hg.symm.trans hparse)
      obtain ⟨rfl, rfl⟩ :=
        (reads_file path file).unique (valid_cursor file) le_rfl hc hdata hc'' hdata''
      have hle := hextent _ (htensors ▸ List.mem_map_of_mem ht)
      have hsmall := file.small
      rw [hoffset] at hle
      dsimp only at hle
      omega
  · intro h
    unfold InBounds
    by_cases hnil : file.data = []
    · rw [new, if_pos hnil]
      exact trivial
    · rw [new, if_neg hnil]
      rcases parse_sound path file with ⟨e, he, hparse⟩ |
        ⟨c, b, rest, g, hparse, hdata, hc, hchecks, hmetadata, hoffset, htensors⟩
      · rw [hparse]
        exact he
      · obtain ⟨hknown, hwrap⟩ := h c b rest hdata hc hchecks
        have hsize := (valid_cursor file).2.1
        rw [hparse]
        refine ⟨c, b, rest, hdata, holds_of_known hc hknown, hmetadata, ?_, ?_⟩
        · rw [htensors]
          exact absOffset_of_holds hc _
        · intro t ht
          rw [htensors] at ht
          obtain ⟨t, hmem, rfl⟩ := List.mem_map.mp ht
          rw [hoffset]
          exact (extent_le (hchecks t hmem) (hwrap t hmem)).trans_eq hsize

/-- A tensor of one byte, 64 bytes before the end of the address space. -/
def wrapFile : MappedFile where
  data := [0x47, 0x47, 0x55, 0x46, 3, 0, 0, 0, 1, 0, 0, 0, 0, 0, 0, 0, 0, 0, 0, 0, 0, 0, 0, 0,
    0, 0, 0, 0, 0, 0, 0, 0, 0, 0, 0, 0, 24, 0, 0, 0, 0xC0, 0xFF, 0xFF, 0xFF, 0xFF, 0xFF, 0xFF, 0xFF]
  small := by decide

/-- It is accepted, with its extent at the start of the file. -/
theorem wrapFile_not_inBounds : ¬ InBounds "model.gguf" wrapFile := by
  have hnew : new "model.gguf" (.mapped wrapFile) = .ok {
      path := "model.gguf"
      size := 48
      data := wrapFile.data
      version := 3
      alignment := 32
      tensorDataOffset := 64
      metadata := []
      tensors := [⟨[], [], 24, 0xFFFFFFFFFFFFFFC0, 0, 1, 1⟩]
      tensorIndex := [([], 0)] } := by
    decide +kernel
  unfold InBounds
  rw [hnew]
  rintro ⟨-, -, -, -, -, -, -, hextent⟩
  exact absurd (hextent _ List.mem_cons_self) (by decide)

end GgufFile

end Qw3.Gguf
