import Mathlib.Data.List.Sort
import Mathlib.Data.List.Nodup
import Qw3.Lib.PrefixCode
import Qw3.Archive.DFlash

/-!
# Ladder state files

* `KvMemArchive`, `writeState`, `readState` — the source's (`kvmem_archive.cpp`).
* `readEntries_encode` — the table is read back exactly when its kinds are known
  and no entry comes twice.
* `ladderRoundTrip` — **a state that is written can be read back** exactly when it
  meets what the reader checks and the writer does not.
-/

namespace Qw3.Archive

open KvMemArchiveStateEntry

/-! ## The file format -/

/-- `kStateMagic`. -/
def stateMagic : BitVec 32 := 0x41434B51

/-- `kStateVersion`. -/
def stateVersion : BitVec 32 := 2

/-- The lambda `put_u32`: the bytes it puts. -/
def putU32 (v : BitVec 32) : List Byte := littleEndian 4 v

/-- The lambda `put_u64`. -/
def putU64 (v : BitVec 64) : List Byte := littleEndian 8 v

/-- The lambda `get_u32`: the value at `p`, and `p` after it. -/
def getU32 (p : List Byte) : BitVec 32 × List Byte :=
  (BitVec.ofNat 32 (ofLittleEndian (p.take 4)), p.drop 4)

/-- The lambda `get_u64`. -/
def getU64 (p : List Byte) : BitVec 64 × List Byte :=
  (BitVec.ofNat 64 (ofLittleEndian (p.take 8)), p.drop 8)

/-- `header_bytes`. -/
def headerBytes : ℕ := 4 * 4 + 2 * 8

/-- The bytes of an entry in the table. -/
def entryBytes : ℕ := 2 * 4 + 8

/-- An entry in the table. -/
def encodeEntry (e : KvMemArchiveStateEntry) : List Byte :=
  putU32 e.kind ++ putU32 e.index ++ putU64 e.bytes

/-- The header, with the number of entries cut to its field. -/
def encodeHeader (state : KvMemArchiveState) (hasDraft : Bool) : List Byte :=
  putU32 stateMagic ++ putU32 (if hasDraft then stateVersion else 1) ++ putU32 state.mtpPrefixLen ++
    putU32 (BitVec.ofNat 32 state.entries.length) ++ putU64 state.position ++
    putU64 state.kvmemRegisteredPos

/-- A check that throws. -/
def throwIf (bad : Prop) [Decidable bad] (why : String) : Except String Unit :=
  if bad then .error why else .ok ()

/-- `KvMemArchive`: the manifest's ladder, and the files of the archive. -/
structure KvMemArchive where
  dir : String
  writable : Bool
  ladder : List (BitVec 64) := []
  files : String → Option (List Byte) := fun _ => none

namespace KvMemArchive

/-- `state_path`. -/
def statePath (a : KvMemArchive) (position : BitVec 64) : String :=
  a.dir ++ "/state/" ++ toString position.toNat ++ ".bin"

/-- `write_state`, over the reader of JSON texts. -/
def writeState (parse : List Byte → Except String Json) (a : KvMemArchive)
    (state : KvMemArchiveState) : Except String KvMemArchive := do
  throwIf (¬ a.writable) "KVMem archive is attached read-only"
  let expect ← kvmemArchiveStateBytes state.entries
  throwIf (expect ≠ state.payload.length)
    "KVMem archive state payload does not match its entry table"
  let draft ← readDflashArchive parse state
  let buffer := encodeHeader state draft.isSome ++ state.entries.flatMap encodeEntry
  let path := a.statePath state.position
  let files := Function.update (Function.update a.files (path ++ ".tmp") none) path
    (some (buffer ++ state.payload))
  return { a with
    files
    ladder := if state.position ∈ a.ladder then a.ladder
      else (a.ladder ++ [state.position]).insertionSort (· ≤ ·) }

/-- The loop of `read_state` over the table. -/
def readEntries (path : String) (version : BitVec 32) :
    ℕ → List Byte → List (BitVec 32 × BitVec 32) → Except String (List KvMemArchiveStateEntry)
  | 0, _, _ => .ok []
  | n + 1, p, seen => do
      let (kind, p) := getU32 p
      let (index, p) := getU32 p
      let (bytes, p) := getU64 p
      throwIf (kind > dflashV ∨ version = 1 ∧ kind > conv ∨ (kind, index) ∈ seen)
        ("invalid KVMem archive state entry: " ++ path)
      let entries ← readEntries path version n p ((kind, index) :: seen)
      return ⟨kind, index, bytes⟩ :: entries

/-- `read_state` of the file found at `path`. -/
def readFile (parse : List Byte → Except String Json) (path : String) (position : BitVec 64)
    (file : List Byte) : Except String KvMemArchiveState := do
  throwIf (file.length < headerBytes) "KVMem archive read failed or hit unwritten data"
  let p := file
  let (magic, p) := getU32 p
  throwIf (magic ≠ stateMagic) ("bad KVMem archive state magic: " ++ path)
  let (version, p) := getU32 p
  throwIf (version ≠ 1 ∧ version ≠ stateVersion)
    ("unsupported KVMem archive state version: " ++ path)
  let (mtpPrefixLen, p) := getU32 p
  let (entryCount, p) := getU32 p
  let (statePosition, p) := getU64 p
  let (registered, table) := getU64 p
  throwIf (statePosition ≠ position ∨ registered > position ∨ mtpPrefixLen.setWidth 64 > position)
    ("invalid KVMem archive state position: " ++ path)
  let tableBytes := entryCount.toNat * entryBytes
  throwIf (file.length < headerBytes + tableBytes)
    ("truncated KVMem archive state table: " ++ path)
  let entries ← readEntries path version entryCount.toNat table []
  let payloadBytes ← kvmemArchiveStateBytes entries
  throwIf (payloadBytes ≠ file.length - headerBytes - tableBytes)
    ("invalid KVMem archive state payload length: " ++ path)
  let state : KvMemArchiveState :=
    ⟨statePosition, registered, mtpPrefixLen, entries,
      (file.drop (headerBytes + tableBytes)).take payloadBytes⟩
  let _ ← readDflashArchive parse state
  return state

/-- `read_state`. -/
def readState (parse : List Byte → Except String Json) (a : KvMemArchive)
    (position : BitVec 64) : Except String KvMemArchiveState :=
  match a.files (a.statePath position) with
  | none => .error ("KVMem archive state file not found: " ++ a.statePath position)
  | some file => readFile parse (a.statePath position) position file

end KvMemArchive

/-! ## Reading back what was put -/

/-- A check before the rest. -/
theorem throwIf_bind_eq_ok {α : Type} {bad : Prop} [Decidable bad] {why : String}
    {f : Unit → Except String α} {r : α} :
    throwIf bad why >>= f = .ok r ↔ ¬ bad ∧ f () = .ok r := by
  unfold throwIf
  by_cases hbad : bad
  · rw [if_pos hbad]
    exact iff_of_false (fun h => by cases h) (fun h => h.1 hbad)
  · rw [if_neg hbad, and_iff_right hbad]
    rfl

@[simp] theorem getU32_putU32 (v : BitVec 32) (p : List Byte) : getU32 (putU32 v ++ p) = (v, p) := by
  unfold getU32 putU32
  rw [List.take_left' (length_littleEndian 4 v), List.drop_left' (length_littleEndian 4 v),
    ofNat_littleEndian (by norm_num)]

@[simp] theorem getU64_putU64 (v : BitVec 64) (p : List Byte) : getU64 (putU64 v ++ p) = (v, p) := by
  unfold getU64 putU64
  rw [List.take_left' (length_littleEndian 8 v), List.drop_left' (length_littleEndian 8 v),
    ofNat_littleEndian (by norm_num)]

@[simp] theorem length_putU32 (v : BitVec 32) : (putU32 v).length = 4 := length_littleEndian 4 v

@[simp] theorem length_putU64 (v : BitVec 64) : (putU64 v).length = 8 := length_littleEndian 8 v

theorem length_encodeHeader (state : KvMemArchiveState) (hasDraft : Bool) :
    (encodeHeader state hasDraft).length = headerBytes := by
  simp [encodeHeader, headerBytes]

theorem length_encodeEntries (entries : List KvMemArchiveStateEntry) :
    (entries.flatMap encodeEntry).length = entries.length * entryBytes := by
  induction entries with
  | nil => rfl
  | cons e entries ih =>
      rw [List.flatMap_cons, List.length_append, ih, List.length_cons]
      simp only [encodeEntry, entryBytes, List.length_append, length_putU32, length_putU64]
      omega

/-! ## The table -/

namespace KvMemArchiveStateEntry

/-- What an entry is known by. -/
def key (e : KvMemArchiveStateEntry) : BitVec 32 × BitVec 32 := (e.kind, e.index)

/-- A kind that a reader of `version` knows. -/
def Known (version : BitVec 32) (e : KvMemArchiveStateEntry) : Prop :=
  e.kind ≤ dflashV ∧ (version = 1 → e.kind ≤ conv)

instance (version : BitVec 32) (e : KvMemArchiveStateEntry) : Decidable (e.Known version) :=
  inferInstanceAs (Decidable (e.kind ≤ dflashV ∧ (version = 1 → e.kind ≤ conv)))

end KvMemArchiveStateEntry

namespace KvMemArchive

open KvMemArchiveStateEntry

variable {path : String} {version : BitVec 32}

/-- One step of the loop over the table. -/
theorem readEntries_cons (e : KvMemArchiveStateEntry) (n : ℕ) (p : List Byte)
    (seen : List (BitVec 32 × BitVec 32)) (read : List KvMemArchiveStateEntry) :
    readEntries path version (n + 1) (encodeEntry e ++ p) seen = .ok read ↔
      (e.Known version ∧ e.key ∉ seen) ∧
        ∃ rest, readEntries path version n p (e.key :: seen) = .ok rest ∧ e :: rest = read := by
  have hguard : (e.kind > dflashV ∨ version = 1 ∧ e.kind > conv ∨ (e.kind, e.index) ∈ seen) ↔
      ¬ (e.Known version ∧ e.key ∉ seen) := by
    simp only [Known, key, gt_iff_lt, not_and_or, Classical.not_imp, BitVec.not_le, not_not]
    tauto
  rw [readEntries, encodeEntry]
  simp only [List.append_assoc, getU32_putU32, getU64_putU64]
  rw [throwIf_bind_eq_ok, hguard, not_not]
  refine and_congr_right fun _ => ⟨?_, ?_⟩
  · intro h
    obtain ⟨rest, hrest, h⟩ := Except.bind_eq_ok.mp h
    exact ⟨rest, hrest, Except.ok.inj h⟩
  · rintro ⟨rest, hrest, rfl⟩
    change readEntries path version n p ((e.kind, e.index) :: seen) = .ok rest at hrest
    rw [hrest]
    rfl

/-- A table is read with as many entries as the header names. -/
theorem length_of_readEntries {n : ℕ} {p : List Byte} {seen : List (BitVec 32 × BitVec 32)}
    {entries : List KvMemArchiveStateEntry} (h : readEntries path version n p seen = .ok entries) :
    entries.length = n := by
  induction n generalizing p seen entries with
  | zero =>
      obtain rfl : [] = entries := Except.ok.inj h
      rfl
  | succ n ih =>
      unfold readEntries at h
      obtain ⟨rest, hrest, h⟩ := Except.bind_eq_ok.mp (throwIf_bind_eq_ok.mp h).2
      obtain rfl := Except.ok.inj h
      rw [List.length_cons, ih hrest]

/-- A table that a reader of `version` accepts: its kinds are known, and no entry
comes twice. -/
def Readable (version : BitVec 32) (entries : List KvMemArchiveStateEntry) : Prop :=
  (∀ e ∈ entries, e.Known version) ∧ (entries.map key).Nodup

/-- **A table is read back** exactly when it is readable. -/
theorem readEntries_encode (entries : List KvMemArchiveStateEntry) (payload : List Byte)
    (seen : List (BitVec 32 × BitVec 32)) (read : List KvMemArchiveStateEntry) :
    readEntries path version entries.length (entries.flatMap encodeEntry ++ payload) seen =
        .ok read ↔
      read = entries ∧ Readable version entries ∧ ∀ e ∈ entries, e.key ∉ seen := by
  induction entries generalizing seen read with
  | nil => simp [readEntries, Readable, eq_comm]
  | cons e entries ih =>
      rw [List.flatMap_cons, List.append_assoc, List.length_cons, readEntries_cons]
      constructor
      · rintro ⟨⟨hknown, hnew⟩, rest, hrest, rfl⟩
        obtain ⟨rfl, hread, hrest⟩ := (ih _ _).mp hrest
        refine ⟨rfl, ⟨?_, ?_⟩, ?_⟩
        · exact List.forall_mem_cons.mpr ⟨hknown, hread.1⟩
        · refine List.nodup_cons.mpr ⟨?_, hread.2⟩
          intro hmem
          obtain ⟨e', he', hkey⟩ := List.mem_map.mp hmem
          exact hrest e' he' (hkey ▸ List.mem_cons_self)
        · exact List.forall_mem_cons.mpr
            ⟨hnew, fun e' he' hmem => hrest e' he' (List.mem_cons_of_mem _ hmem)⟩
      · rintro ⟨rfl, ⟨hknown, hnodup⟩, hnew⟩
        obtain ⟨hke, hknown⟩ := List.forall_mem_cons.mp hknown
        obtain ⟨hne, hnew⟩ := List.forall_mem_cons.mp hnew
        obtain ⟨hfresh, hnodup⟩ := List.nodup_cons.mp hnodup
        refine ⟨⟨hke, hne⟩, entries, (ih _ _).mpr ⟨rfl, ⟨hknown, hnodup⟩, ?_⟩, rfl⟩
        intro e' he' hmem
        rcases List.mem_cons.mp hmem with hkey | hmem
        · exact hfresh (hkey ▸ List.mem_map_of_mem he')
        · exact hnew e' he' hmem

/-! ## What is read of a written state -/

variable {parse : List Byte → Except String Json} {a a' : KvMemArchive} {s : KvMemArchiveState}
  {position : BitVec 64}

/-- The table is counted with 32 bits. -/
theorem length_of_readFile {file : List Byte} (h : readFile parse path position file = .ok s) :
    s.entries.length < 2 ^ 32 := by
  unfold readFile at h
  obtain ⟨-, h⟩ := throwIf_bind_eq_ok.mp h
  obtain ⟨-, h⟩ := throwIf_bind_eq_ok.mp h
  obtain ⟨-, h⟩ := throwIf_bind_eq_ok.mp h
  obtain ⟨-, h⟩ := throwIf_bind_eq_ok.mp h
  obtain ⟨-, h⟩ := throwIf_bind_eq_ok.mp h
  obtain ⟨entries, hentries, h⟩ := Except.bind_eq_ok.mp h
  obtain ⟨bytes, -, h⟩ := Except.bind_eq_ok.mp h
  obtain ⟨-, h⟩ := throwIf_bind_eq_ok.mp h
  obtain ⟨draft, -, h⟩ := Except.bind_eq_ok.mp h
  obtain rfl := Except.ok.inj h
  rw [length_of_readEntries hentries]
  exact BitVec.isLt _

/-- What a state's file holds. -/
def encodeState (hasDraft : Bool) (s : KvMemArchiveState) : List Byte :=
  encodeHeader s hasDraft ++ s.entries.flatMap encodeEntry ++ s.payload

theorem length_encodeState (hasDraft : Bool) :
    (encodeState hasDraft s).length =
      headerBytes + s.entries.length * entryBytes + s.payload.length := by
  unfold encodeState
  rw [List.length_append, List.length_append, length_encodeHeader, length_encodeEntries]

theorem drop_encodeState (hasDraft : Bool) :
    (encodeState hasDraft s).drop (headerBytes + s.entries.length * entryBytes) = s.payload := by
  unfold encodeState
  refine List.drop_left' ?_
  rw [List.length_append, length_encodeHeader, length_encodeEntries]

/-- The fields of a written header, and what the reader asks of them. -/
theorem readFile_encodeState {hasDraft : Bool} {draft : Option DFlashArchiveView}
    (hbytes : kvmemArchiveStateBytes s.entries = .ok s.payload.length)
    (hdraft : readDflashArchive parse s = .ok draft) (hlen : s.entries.length < 2 ^ 32) :
    readFile parse path s.position (encodeState hasDraft s) = .ok s ↔
      (s.kvmemRegisteredPos ≤ s.position ∧ s.mtpPrefixLen.setWidth 64 ≤ s.position) ∧
        Readable (if hasDraft then stateVersion else 1) s.entries := by
  obtain ⟨version, hversion⟩ : ∃ v, v = if hasDraft then stateVersion else 1 := ⟨_, rfl⟩
  have hknown : ¬ (version ≠ 1 ∧ version ≠ stateVersion) := by
    rw [hversion]
    cases hasDraft <;> simp
  have hcount : (BitVec.ofNat 32 s.entries.length).toNat = s.entries.length := by
    rw [BitVec.toNat_ofNat, Nat.mod_eq_of_lt hlen]
  -- the whole file, field by field
  obtain ⟨file, hfile⟩ : ∃ file, file = encodeState hasDraft s := ⟨_, rfl⟩
  have hfields : file = putU32 stateMagic ++ (putU32 version ++ (putU32 s.mtpPrefixLen ++
      (putU32 (BitVec.ofNat 32 s.entries.length) ++ (putU64 s.position ++
        (putU64 s.kvmemRegisteredPos ++ (s.entries.flatMap encodeEntry ++ s.payload)))))) := by
    rw [hfile, hversion]
    simp only [encodeState, encodeHeader, List.append_assoc]
  have hsize := length_encodeState (s := s) hasDraft
  have hdrop := drop_encodeState (s := s) hasDraft
  rw [← hfile] at hsize hdrop ⊢
  unfold readFile
  simp only [throwIf_bind_eq_ok, hsize]
  rw [hfields]
  simp only [getU32_putU32, getU64_putU64, hcount]
  rw [← hfields, ← hversion]
  have hposition : ¬ (s.position ≠ s.position ∨ s.kvmemRegisteredPos > s.position ∨
      s.mtpPrefixLen.setWidth 64 > s.position) ↔
      s.kvmemRegisteredPos ≤ s.position ∧ s.mtpPrefixLen.setWidth 64 ≤ s.position := by
    simp only [ne_eq, not_true_eq_false, false_or, not_or, gt_iff_lt, BitVec.not_lt]
  rw [hposition, and_iff_right (by omega), and_iff_right (not_not.mpr rfl), and_iff_right hknown,
    and_congr_right_iff]
  intro _
  rw [and_iff_right (by omega)]
  constructor
  · intro h
    obtain ⟨entries, hentries, h⟩ := Except.bind_eq_ok.mp h
    exact ((readEntries_encode _ _ _ _).mp hentries).2.1
  · intro hreadable
    have hentries : readEntries path version s.entries.length
        (s.entries.flatMap encodeEntry ++ s.payload) [] = .ok s.entries :=
      (readEntries_encode _ _ _ _).mpr ⟨rfl, hreadable, fun _ _ => List.not_mem_nil⟩
    rw [hentries]
    change (kvmemArchiveStateBytes s.entries >>= _) = _
    rw [hbytes]
    change (throwIf _ _ >>= _) = _
    rw [throwIf_bind_eq_ok, hdrop, List.take_length]
    refine ⟨by omega, ?_⟩
    change (readDflashArchive parse s >>= _) = _
    rw [hdraft]
    rfl

/-! ## Ladder states round trip -/

/-- What `write_state` checked, and the file it left. -/
theorem writeState_eq_ok (h : a.writeState parse s = .ok a') :
    kvmemArchiveStateBytes s.entries = .ok s.payload.length ∧
      ∃ draft, readDflashArchive parse s = .ok draft ∧
        a'.files (a'.statePath s.position) = some (encodeState draft.isSome s) ∧
        s.position ∈ a'.ladder := by
  unfold writeState at h
  obtain ⟨-, h⟩ := throwIf_bind_eq_ok.mp h
  obtain ⟨expect, hexpect, h⟩ := Except.bind_eq_ok.mp h
  obtain ⟨hsame, h⟩ := throwIf_bind_eq_ok.mp h
  obtain ⟨draft, hdraft, h⟩ := Except.bind_eq_ok.mp h
  obtain rfl := Except.ok.inj h
  refine ⟨not_not.mp hsame ▸ hexpect, draft, hdraft, ?_, ?_⟩
  · exact Function.update_self _ _ _
  · dsimp only
    split_ifs with hmem
    · exact hmem
    · simp [List.mem_insertionSort]

/-- A state whose version its own draft chose is readable when every kind is known. -/
theorem readable_of_draft {draft : Option DFlashArchiveView}
    (hdraft : readDflashArchive parse s = .ok draft) :
    Readable (if draft.isSome then stateVersion else 1) s.entries ↔
      (∀ e ∈ s.entries, e.kind ≤ dflashV) ∧ (s.entries.map key).Nodup := by
  refine and_congr_left fun _ => forall₂_congr fun e he => ?_
  unfold Known
  refine and_iff_left_of_imp fun hkind hversion => ?_
  cases draft with
  | some view => exact absurd hversion (show stateVersion ≠ 1 by decide)
  | none =>
      -- with no draft, the kinds after `Conv` are not there
      obtain ⟨hmeta, hraw, hv⟩ := kind_of_readDflashArchive_none hdraft e he
      unfold dflashMetadata dflashRawK dflashV conv at *
      bv_omega

/-- **A ladder state that is written can be read back** exactly when the reader
knows its kinds, no entry comes twice, its registered and draft positions are not
after its own, and its entries can be counted with 32 bits. -/
theorem ladderRoundTrip (parse : List Byte → Except String Json) (a a' : KvMemArchive)
    (s : KvMemArchiveState) (h : a.writeState parse s = .ok a') :
    a'.readState parse s.position = .ok s ↔
      (∀ e ∈ s.entries, e.kind ≤ dflashV) ∧ (s.entries.map key).Nodup ∧
        s.kvmemRegisteredPos ≤ s.position ∧ s.mtpPrefixLen.setWidth 64 ≤ s.position ∧
        s.entries.length < 2 ^ 32 := by
  obtain ⟨hbytes, draft, hdraft, hfile, -⟩ := writeState_eq_ok h
  unfold readState
  rw [hfile]
  constructor
  · intro hread
    have hlen := length_of_readFile hread
    obtain ⟨⟨hreg, hmtp⟩, hreadable⟩ := (readFile_encodeState hbytes hdraft hlen).mp hread
    obtain ⟨hkinds, hnodup⟩ := (readable_of_draft hdraft).mp hreadable
    exact ⟨hkinds, hnodup, hreg, hmtp, hlen⟩
  · rintro ⟨hkinds, hnodup, hreg, hmtp, hlen⟩
    exact (readFile_encodeState hbytes hdraft hlen).mpr
      ⟨⟨hreg, hmtp⟩, (readable_of_draft hdraft).mpr ⟨hkinds, hnodup⟩⟩

/-! ## A state that cannot be read back -/

/-- A state registered further than its own position. -/
def registeredAhead : KvMemArchiveState := ⟨256, 512, 0, [], []⟩

/-- An empty archive open for writing. -/
def building : KvMemArchive := { dir := "archive", writable := true }

/-- Nothing parses; no state below has metadata. -/
def noJson : List Byte → Except String Json := fun _ => .error "no metadata"

theorem writeState_registeredAhead : ∃ a, building.writeState noJson registeredAhead = .ok a :=
  ⟨_, rfl⟩

/-- The writer takes it, and the reader throws. -/
theorem registeredAhead_not_read :
    ¬ ∀ (parse : List Byte → Except String Json) (a a' : KvMemArchive) (s : KvMemArchiveState),
      a.writeState parse s = .ok a' → a'.readState parse s.position = .ok s := by
  intro hclaim
  obtain ⟨a, hwrite⟩ := writeState_registeredAhead
  obtain ⟨hbytes, draft, hdraft, hfile, -⟩ := writeState_eq_ok hwrite
  have hread := hclaim noJson building a registeredAhead hwrite
  unfold readState at hread
  rw [hfile] at hread
  have hpos := ((readFile_encodeState hbytes hdraft (by decide)).mp hread).1.1
  exact absurd hpos (by decide)

/-- A state of one recurrent tensor. -/
def oneTensor : KvMemArchiveState := ⟨256, 256, 0, [⟨2, 0, 3⟩], [1, 2, 3]⟩

theorem writeState_oneTensor : ∃ a, building.writeState noJson oneTensor = .ok a := ⟨_, rfl⟩

/-- It is read back. -/
theorem ladderRoundTrip_oneTensor : ∃ a, building.writeState noJson oneTensor = .ok a ∧
    a.readState noJson oneTensor.position = .ok oneTensor := by
  obtain ⟨a, hwrite⟩ := writeState_oneTensor
  refine ⟨a, hwrite, (ladderRoundTrip noJson building a oneTensor hwrite).mpr ?_⟩
  decide

end KvMemArchive

end Qw3.Archive
