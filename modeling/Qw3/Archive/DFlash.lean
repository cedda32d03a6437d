import Qw3.Json.Value
import Qw3.Lib.Steps

/-!
# The draft cache in a ladder state

* `KvMemArchiveState`, `kvmemArchiveStateBytes`, `readDflashArchive` — the
  source's (`kvmem_archive.hpp`, `dflash_archive.hpp`).
* `kind_of_readDflashArchive_none` — a state without a draft has no draft entries.
-/

namespace Qw3.Archive

/-- A byte of a file. -/
abbrev Byte := BitVec 8

/-- `KvMemArchiveStateEntry`. -/
structure KvMemArchiveStateEntry where
  kind : BitVec 32
  index : BitVec 32
  bytes : BitVec 64
  deriving DecidableEq

namespace KvMemArchiveStateEntry

/-- `Conv`, the last of the main model's kinds. -/
def conv : BitVec 32 := 3

/-- `DFlashMetadata`. -/
def dflashMetadata : BitVec 32 := 4

/-- `DFlashRawK`. -/
def dflashRawK : BitVec 32 := 5

/-- `DFlashV`. -/
def dflashV : BitVec 32 := 6

end KvMemArchiveStateEntry

open KvMemArchiveStateEntry

/-- `KvMemArchiveState`. -/
structure KvMemArchiveState where
  position : BitVec 64
  kvmemRegisteredPos : BitVec 64
  mtpPrefixLen : BitVec 32
  entries : List KvMemArchiveStateEntry
  payload : List Byte
  deriving DecidableEq

/-- The loop of `kvmem_archive_state_bytes`. -/
def stateBytesFrom (total : ℕ) : List KvMemArchiveStateEntry → Except String ℕ
  | [] => .ok total
  | e :: entries =>
      if e.bytes.toNat > 2 ^ 64 - 1 - total then
        .error "KVMem archive state payload size overflow"
      else stateBytesFrom (total + e.bytes.toNat) entries

/-- `kvmem_archive_state_bytes`. -/
def kvmemArchiveStateBytes (entries : List KvMemArchiveStateEntry) : Except String ℕ :=
  stateBytesFrom 0 entries

/-- `DFlashArchiveView`; the place of a tensor that was not seen is `none`. -/
structure DFlashArchiveView where
  identity : String
  nextPosition : ℕ
  rows : ℕ
  ropeNext : ℕ
  layers : ℕ
  kvHeads : ℕ
  headDim : ℕ
  window : ℕ
  maxPosition : ℕ
  blockSize : ℕ
  keys : List (Option ℕ) := []
  values : List (Option ℕ) := []

/-- `tensor_bytes`. -/
def DFlashArchiveView.tensorBytes (v : DFlashArchiveView) : ℕ := v.rows * v.kvHeads * v.headDim * 4

/-- The lambda `require`. -/
def require (ok : Bool) (why : String) : Except String Unit :=
  if ok then .ok () else .error ("invalid DFlash archive state: " ++ why)

/-- `json::at`. -/
def jsonAt (name : String) : Json → Except String Json
  | .object members =>
      match members.lookup name with
      | some value => .ok value
      | none => .error ("[json.exception.out_of_range.403] key '" ++ name ++ "' not found")
  | j => .error (Json.typeError "304" ("cannot use at() with " ++ j.typeName))

/-- The lambda `number`. -/
def number (j : Json) (name : String) (limit : ℕ) : Except String ℕ := do
  let value ← jsonAt name j
  match value with
  | .unsigned v =>
      require (v.toNat ≤ limit) "metadata field exceeds limit"
      return v.toNat
  | _ => .error "invalid DFlash archive state: unsigned metadata field required"

/-- What the first loop over the entries has seen. -/
structure DFlashScan where
  offset : ℕ := 0
  metadataOffset : ℕ := 0
  metadataBytes : ℕ := 0
  tensors : Bool := false

/-- The body of the first loop. -/
def scanEntry (acc : DFlashScan) (e : KvMemArchiveStateEntry) : Except String DFlashScan :=
  if e.kind = dflashMetadata then
    if acc.metadataBytes = 0 ∧ e.index = 0 ∧ 0 < e.bytes.toNat ∧ e.bytes.toNat ≤ 4096 then
      .ok { acc with metadataOffset := acc.offset, metadataBytes := e.bytes.toNat,
                     offset := acc.offset + e.bytes.toNat }
    else .error "invalid DFlash archive state: duplicate or oversized metadata"
  else
    .ok { acc with tensors := acc.tensors || e.kind = dflashRawK || e.kind = dflashV,
                   offset := acc.offset + e.bytes.toNat }

/-- The body of the second loop: a tensor's place is noted, once. -/
def placeEntry (acc : ℕ × DFlashArchiveView) (e : KvMemArchiveStateEntry) :
    Except String (ℕ × DFlashArchiveView) :=
  let v := acc.2
  let next := acc.1 + e.bytes.toNat
  let why := "invalid DFlash archive state: duplicate, out-of-range, or missized draft tensor"
  if e.kind = dflashRawK then
    if v.keys[e.index.toNat]? = some none ∧ e.bytes.toNat = v.tensorBytes then
      .ok (next, { v with keys := v.keys.set e.index.toNat (some acc.1) })
    else .error why
  else if e.kind = dflashV then
    if v.values[e.index.toNat]? = some none ∧ e.bytes.toNat = v.tensorBytes then
      .ok (next, { v with values := v.values.set e.index.toNat (some acc.1) })
    else .error why
  else .ok (next, v)

/-- A lower-case hexadecimal digit. -/
def isLowerHex (c : Char) : Bool := '0' ≤ c ∧ c ≤ '9' ∨ 'a' ≤ c ∧ c ≤ 'f'

/-- `read_dflash_archive` from the metadata on. -/
def readMetadata (state : KvMemArchiveState) (j : Json) : Except String DFlashArchiveView := do
  let version ← number j "version" 1
  require (version = 1) "metadata version"
  let identity ← (← jsonAt "identity_sha256" j).getString
  require (identity.utf8ByteSize = 64 ∧ identity.toList.all isLowerHex) "model fingerprint"
  let nextPosition ← number j "next_position" (2 ^ 64 - 1)
  let rows ← number j "rows" 8192
  let ropeNext ← number j "rope_next" (2 ^ 32 - 1)
  let layers ← number j "layers" 128
  let kvHeads ← number j "kv_heads" 128
  let headDim ← number j "head_dim" 1024
  let window ← number j "window" 8192
  let maxPosition ← number j "max_position" (2 ^ 32 - 1)
  let blockSize ← number j "block_size" 8192
  require (layers ≠ 0 ∧ kvHeads ≠ 0 ∧ headDim ≠ 0 ∧ window ≠ 0 ∧ blockSize ≠ 0) "zero shape"
  require (nextPosition = state.position.toNat ∧ rows ≤ nextPosition ∧ rows ≤ window ∧
    rows ≤ ropeNext ∧ ropeNext + blockSize ≤ maxPosition ∧ window + blockSize ≤ maxPosition)
    "positions"
  let count := if rows ≠ 0 then layers else 0
  let view : DFlashArchiveView :=
    { identity, nextPosition, rows, ropeNext, layers, kvHeads, headDim, window, maxPosition,
      blockSize, keys := List.replicate count none, values := List.replicate count none }
  let placed ← state.entries.foldlM placeEntry (0, view)
  require (none ∉ placed.2.keys ∧ none ∉ placed.2.values) "missing draft tensor"
  return placed.2

/-- `read_dflash_archive`, over the reader of JSON texts. -/
def readDflashArchive (parse : List Byte → Except String Json) (state : KvMemArchiveState) :
    Except String (Option DFlashArchiveView) := do
  let expect ← kvmemArchiveStateBytes state.entries
  require (expect = state.payload.length) "payload length"
  let scan ← state.entries.foldlM scanEntry {}
  if scan.metadataBytes = 0 then
    require (¬ scan.tensors) "draft tensors have no metadata"
    return none
  else
    let j ← parse ((state.payload.drop scan.metadataOffset).take scan.metadataBytes)
    let view ← readMetadata state j
    return some view

/-! ## States without a draft -/

variable {parse : List Byte → Except String Json} {state : KvMemArchiveState}

/-- What a successful bind passed. -/
theorem require_eq_ok {ok : Bool} {why : String} {u : Unit} (h : require ok why = .ok u) :
    ok = true := by
  unfold require at h
  split_ifs at h with hok
  exact hok

/-- A scan that ends without metadata and tensors has met none. -/
theorem kind_of_scan {entries : List KvMemArchiveStateEntry} {acc r : DFlashScan}
    (h : entries.foldlM scanEntry acc = .ok r) (hbytes : r.metadataBytes = 0)
    (htensors : r.tensors = false) :
    acc.metadataBytes = 0 ∧ acc.tensors = false ∧
      ∀ e ∈ entries, e.kind ≠ dflashMetadata ∧ e.kind ≠ dflashRawK ∧ e.kind ≠ dflashV := by
  induction entries generalizing acc with
  | nil =>
      obtain rfl : acc = r := Except.ok.inj h
      exact ⟨hbytes, htensors, fun e hmem => absurd hmem List.not_mem_nil⟩
  | cons e entries ih =>
      rw [List.foldlM_cons] at h
      obtain ⟨acc', hstep, hrest⟩ := Except.bind_eq_ok.mp h
      obtain ⟨hacc, hten, hall⟩ := ih hrest
      unfold scanEntry at hstep
      split_ifs at hstep with hmeta hfits
      · -- metadata would have been noted with its bytes
        rw [← Except.ok.inj hstep] at hacc
        exact absurd hacc (Nat.pos_iff_ne_zero.mp hfits.2.2.1)
      · rw [← Except.ok.inj hstep] at hacc hten
        simp only [Bool.or_eq_false_iff, decide_eq_false_iff_not] at hten
        refine ⟨hacc, hten.1.1, ?_⟩
        intro e' hmem
        rcases List.mem_cons.mp hmem with rfl | hmem
        · exact ⟨hmeta, hten.1.2, hten.2⟩
        · exact hall e' hmem

/-- A state without a draft has no draft entries. -/
theorem kind_of_readDflashArchive_none (h : readDflashArchive parse state = .ok none) :
    ∀ e ∈ state.entries, e.kind ≠ dflashMetadata ∧ e.kind ≠ dflashRawK ∧ e.kind ≠ dflashV := by
  unfold readDflashArchive at h
  obtain ⟨expect, -, h⟩ := Except.bind_eq_ok.mp h
  obtain ⟨_, -, h⟩ := Except.bind_eq_ok.mp h
  obtain ⟨scan, hscan, h⟩ := Except.bind_eq_ok.mp h
  split_ifs at h with hbytes
  · obtain ⟨_, hno, -⟩ := Except.bind_eq_ok.mp h
    refine (kind_of_scan hscan hbytes ?_).2.2
    simpa using require_eq_ok hno
  · obtain ⟨j, -, h⟩ := Except.bind_eq_ok.mp h
    obtain ⟨view, -, h⟩ := Except.bind_eq_ok.mp h
    cases h

end Qw3.Archive
