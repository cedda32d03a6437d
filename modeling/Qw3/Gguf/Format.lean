import Qw3.Lib.PrefixCode
import Qw3.Lib.Reader

/-!
# The GGUF format

What a GGUF file holds, and how it is written: little-endian words, strings after
their length, and metadata values that may be arrays of arrays.

* `GgufValueType`, `GgufValue`, `GgufTensorInfo`, `scalarSize`, `ggufTensorTypeSize`
  — the source's (`gguf.hpp`, `gguf.cpp`).
* `Holds` — the bytes that are a value of one of the known types, in full; `Taken` —
  what the parser takes for a value, where one of an unknown type has no bytes.
* `EntryHolds`, `TensorHolds`, `Contents.Holds` — the entries of a file, and a file up
  to the tensor data, with values as either of the two says.
-/

namespace Qw3.Gguf

abbrev Byte := BitVec 8

/-- How the parser leaves: it throws (a message may end in the name of a tensor), it
reads memory outside of the file, or it has descended deeper than the file allows. -/
inductive Stop
  | throws (what : String)
  | throwsFor (what : String) (name : List Byte)
  | fault
  | tooDeep
  deriving DecidableEq, Repr

/-- What is an exception of the source. -/
def Stop.Thrown : Stop → Prop
  | throws _ => True
  | throwsFor _ _ => True
  | fault => False
  | tooDeep => False

/-- `GgufValueType`, with the values that name no type. -/
inductive GgufValueType
  | uint8 | int8 | uint16 | int16 | uint32 | int32 | float32 | bool | string | array
  | uint64 | int64 | float64
  | unknown (code : BitVec 32)
  deriving DecidableEq, Repr

namespace GgufValueType

/-- `static_cast<GgufValueType>`. -/
def ofCode (code : BitVec 32) : GgufValueType :=
  match code.toNat with
  | 0 => uint8
  | 1 => int8
  | 2 => uint16
  | 3 => int16
  | 4 => uint32
  | 5 => int32
  | 6 => float32
  | 7 => bool
  | 8 => string
  | 9 => array
  | 10 => uint64
  | 11 => int64
  | 12 => float64
  | _ => unknown code

/-- The thirteen known types. -/
def Known : GgufValueType → Prop
  | unknown _ => False
  | _ => True

/-- `scalar_size`. -/
def scalarSize : GgufValueType → Except Stop (BitVec 64)
  | uint8 | int8 | bool => .ok 1
  | uint16 | int16 => .ok 2
  | uint32 | int32 | float32 => .ok 4
  | uint64 | int64 | float64 => .ok 8
  | string | array => .ok 0
  | unknown _ => .error (.throws "unknown GGUF metadata type")

end GgufValueType

/-- A `double` by the bits it was read from. -/
inductive FloatValue
  | zero
  | ofFloat (bits : BitVec 32)
  | ofDouble (bits : BitVec 64)
  deriving DecidableEq, Repr

/-- `GgufValue`. -/
structure GgufValue where
  type : GgufValueType
  stringValue : List Byte := []
  stringArray : List (List Byte) := []
  unsignedValue : BitVec 64 := 0
  signedValue : BitVec 64 := 0
  floatValue : FloatValue := .zero
  boolValue : Bool := false
  deriving DecidableEq, Repr

/-- `GgufTensorInfo`. -/
structure GgufTensorInfo where
  name : List Byte
  dims : List (BitVec 64)
  type : BitVec 32
  relOffset : BitVec 64
  absOffset : BitVec 64
  elements : BitVec 64
  bytes : BitVec 64
  deriving DecidableEq, Repr

/-- `checked_mul`. -/
def checkedMul (a b : BitVec 64) : Except Stop (BitVec 64) :=
  if a ≠ 0 ∧ b > BitVec.allOnes 64 / a then .error (.throws "GGUF tensor size overflow")
  else .ok (a * b)

/-- The lambda `block` of `gguf_tensor_type_size`. -/
def blockSize (elements blockSize typeSize : BitVec 64) : Except Stop (BitVec 64) :=
  if elements % blockSize ≠ 0 then
    .error (.throws "quantized GGUF tensor elements are not block aligned")
  else checkedMul (elements / blockSize) typeSize

/-- `gguf_tensor_type_size`. -/
def ggufTensorTypeSize (type : BitVec 32) (elements : BitVec 64) : Except Stop (BitVec 64) :=
  match type.toNat with
  | 0 => checkedMul elements 4
  | 1 => checkedMul elements 2
  | 2 => blockSize elements 32 18
  | 3 => blockSize elements 32 20
  | 6 => blockSize elements 32 22
  | 7 => blockSize elements 32 24
  | 8 => blockSize elements 32 34
  | 9 => blockSize elements 32 36
  | 10 => blockSize elements 256 84
  | 11 => blockSize elements 256 110
  | 12 => blockSize elements 256 144
  | 13 => blockSize elements 256 176
  | 14 => blockSize elements 256 210
  | 15 => blockSize elements 256 292
  | 24 => .ok elements
  | 25 => checkedMul elements 2
  | 26 => checkedMul elements 4
  | 27 => checkedMul elements 8
  | 28 => checkedMul elements 8
  | 30 => checkedMul elements 2
  | _ => .ok 0

/-! ## What is written -/

/-- The greatest length of a string. -/
def maxString : ℕ := 2 ^ 31 - 1

/-- A string, after its length. -/
def StringHolds (s b : List Byte) : Prop :=
  s.length ≤ maxString ∧ b = littleEndian 8 (BitVec.ofNat 64 s.length) ++ s

open GgufValueType in
/-- The bytes of a value of a known type, all of them. -/
inductive Holds : GgufValue → List Byte → Prop
  | uint8 (x : BitVec 8) : Holds { type := .uint8, unsignedValue := x.setWidth 64 } (littleEndian 1 x)
  | uint16 (x : BitVec 16) :
      Holds { type := .uint16, unsignedValue := x.setWidth 64 } (littleEndian 2 x)
  | uint32 (x : BitVec 32) :
      Holds { type := .uint32, unsignedValue := x.setWidth 64 } (littleEndian 4 x)
  | uint64 (x : BitVec 64) :
      Holds { type := .uint64, unsignedValue := x.setWidth 64 } (littleEndian 8 x)
  | int8 (x : BitVec 8) : Holds { type := .int8, signedValue := x.signExtend 64 } (littleEndian 1 x)
  | int16 (x : BitVec 16) :
      Holds { type := .int16, signedValue := x.signExtend 64 } (littleEndian 2 x)
  | int32 (x : BitVec 32) :
      Holds { type := .int32, signedValue := x.signExtend 64 } (littleEndian 4 x)
  | int64 (x : BitVec 64) :
      Holds { type := .int64, signedValue := x.signExtend 64 } (littleEndian 8 x)
  | float32 (x : BitVec 32) : Holds { type := .float32, floatValue := .ofFloat x } (littleEndian 4 x)
  | float64 (x : BitVec 64) : Holds { type := .float64, floatValue := .ofDouble x } (littleEndian 8 x)
  | bool (x : BitVec 8) : Holds { type := .bool, boolValue := x ≠ 0 } (littleEndian 1 x)
  | string {s b : List Byte} (h : StringHolds s b) : Holds { type := .string, stringValue := s } b
  | strings {code : BitVec 32} {count : BitVec 64} {ss : List (List Byte)} {b : List Byte}
      (hcode : ofCode code = .string) (hcount : ss.length = count.toNat)
      (h : Listed StringHolds ss b) :
      Holds { type := .array, stringArray := ss } (littleEndian 4 code ++ (littleEndian 8 count ++ b))
  | array {code : BitVec 32} {count : BitVec 64} {items : List (GgufValue × List Byte)}
      (hknown : (ofCode code).Known) (hcode : ofCode code ≠ .string)
      (hcount : items.length = count.toNat) (htype : ∀ i ∈ items, i.1.type = ofCode code)
      (h : ∀ i ∈ items, Holds i.1 i.2) :
      Holds { type := .array }
        (littleEndian 4 code ++ (littleEndian 8 count ++ (items.map Prod.snd).flatten))

/-- What the parser takes for a value: in full if it knows the type, and otherwise
nothing at all. -/
def Taken (v : GgufValue) (b : List Byte) : Prop :=
  Holds v b ∨ ¬ v.type.Known ∧ v = { type := v.type } ∧ b = []

/-- A metadata entry: the key, the type and the value, which stands as `V` says. -/
def EntryHolds (V : GgufValue → List Byte → Prop) (e : List Byte × GgufValue) (b : List Byte) : Prop :=
  ∃ kb code vb, StringHolds e.1 kb ∧ GgufValueType.ofCode code = e.2.type ∧ V e.2 vb ∧
    b = kb ++ (littleEndian 4 code ++ vb)

/-- A tensor entry. -/
def TensorHolds (t : GgufTensorInfo) (b : List Byte) : Prop :=
  ∃ nb db, ∃ nDims : BitVec 32, StringHolds t.name nb ∧ nDims ≤ 8 ∧ t.dims.length = nDims.toNat ∧
    Listed (fun dim b => b = littleEndian 8 dim) t.dims db ∧
    t.dims.foldlM checkedMul 1 = .ok t.elements ∧
    ggufTensorTypeSize t.type t.elements = .ok t.bytes ∧ t.absOffset = 0 ∧
    b = nb ++ (littleEndian 4 nDims ++ (db ++ (littleEndian 4 t.type ++ littleEndian 8 t.relOffset)))

/-- `kGgufMagic`. -/
def ggufMagic : BitVec 32 := 0x46554747

/-- What stands before the tensor data. -/
structure Contents where
  version : BitVec 32
  entries : List (List Byte × GgufValue)
  tensors : List GgufTensorInfo

/-- The bytes before the tensor data. -/
def Contents.Holds (V : GgufValue → List Byte → Prop) (c : Contents) (b : List Byte) : Prop :=
  ∃ nTensors nMetadata : BitVec 64, ∃ eb tb, c.version = 3 ∧ c.entries.length = nMetadata.toNat ∧
    c.tensors.length = nTensors.toNat ∧ Listed (EntryHolds V) c.entries eb ∧
    Listed TensorHolds c.tensors tb ∧
    b = littleEndian 4 ggufMagic ++ (littleEndian 4 c.version ++ (littleEndian 8 nTensors ++
      (littleEndian 8 nMetadata ++ (eb ++ tb))))

/-! ## Arrays -/

variable {elem : GgufValueType} {b : List Byte} {n : ℕ}

/-- The elements of an array, one after the other. -/
def Elements (elem : GgufValueType) (n : ℕ) (b : List Byte) : Prop :=
  ∃ items : List (GgufValue × List Byte), items.length = n ∧ (∀ i ∈ items, i.1.type = elem) ∧
    (∀ i ∈ items, Holds i.1 i.2) ∧ b = (items.map Prod.snd).flatten

/-- Elements are taken by whatever takes one. -/
theorem elements_iff {α : Type} {E : α → List Byte → Prop}
    (hE : ∀ b, (∃ a, E a b) ↔ ∃ v, v.type = elem ∧ Holds v b) :
    (∃ as, as.length = n ∧ Listed E as b) ↔ Elements elem n b := by
  constructor
  · rintro ⟨as, rfl, h⟩
    induction h with
    | nil => exact ⟨[], rfl, by simp, by simp, rfl⟩
    | @cons a as b bs head _ ih =>
        obtain ⟨v, htype, hv⟩ := (hE b).mp ⟨a, head⟩
        obtain ⟨items, hlen, htypes, hitems, rfl⟩ := ih
        refine ⟨(v, b) :: items, ?_, ?_, ?_, rfl⟩
        · rw [List.length_cons, List.length_cons, hlen]
        · exact List.forall_mem_cons.mpr ⟨htype, htypes⟩
        · exact List.forall_mem_cons.mpr ⟨hv, hitems⟩
  · rintro ⟨items, rfl, htypes, hitems, rfl⟩
    induction items with
    | nil => exact ⟨[], rfl, .nil⟩
    | cons i items ih =>
        obtain ⟨htype, htypes⟩ := List.forall_mem_cons.mp htypes
        obtain ⟨hi, hitems⟩ := List.forall_mem_cons.mp hitems
        obtain ⟨a, ha⟩ := (hE i.2).mpr ⟨i.1, htype, hi⟩
        obtain ⟨as, hlen, has⟩ := ih htypes hitems
        exact ⟨a :: as, by rw [List.length_cons, hlen, List.length_cons], .cons ha has⟩

theorem exists_string : (∃ s, StringHolds s b) ↔ ∃ v, v.type = .string ∧ Holds v b := by
  constructor
  · rintro ⟨s, hs⟩
    exact ⟨_, rfl, .string hs⟩
  · rintro ⟨v, htype, hv⟩
    cases hv with
    | string h => exact ⟨_, h⟩
    | _ => cases htype

/-- Any bytes are a word. -/
theorem exists_word (w : ℕ) {count : ℕ} (hw : w = 8 * count) (h : b.length = count) :
    ∃ x : BitVec w, b = littleEndian count x := by
  subst hw h
  exact ⟨_, (littleEndian_ofNat le_rfl).symm⟩

/-- Any bytes of the right number are a scalar. -/
theorem exists_scalar {size : BitVec 64} (hsize : elem.scalarSize = .ok size) (hpos : size ≠ 0) :
    b.length = size.toNat ↔ ∃ v, v.type = elem ∧ Holds v b := by
  constructor
  · intro hlen
    cases elem <;> simp only [GgufValueType.scalarSize, Except.ok.injEq, reduceCtorEq] at hsize <;>
      subst hsize
    · obtain ⟨x, rfl⟩ := exists_word 8 rfl hlen
      exact ⟨_, rfl, .uint8 x⟩
    · obtain ⟨x, rfl⟩ := exists_word 8 rfl hlen
      exact ⟨_, rfl, .int8 x⟩
    · obtain ⟨x, rfl⟩ := exists_word 16 rfl hlen
      exact ⟨_, rfl, .uint16 x⟩
    · obtain ⟨x, rfl⟩ := exists_word 16 rfl hlen
      exact ⟨_, rfl, .int16 x⟩
    · obtain ⟨x, rfl⟩ := exists_word 32 rfl hlen
      exact ⟨_, rfl, .uint32 x⟩
    · obtain ⟨x, rfl⟩ := exists_word 32 rfl hlen
      exact ⟨_, rfl, .int32 x⟩
    · obtain ⟨x, rfl⟩ := exists_word 32 rfl hlen
      exact ⟨_, rfl, .float32 x⟩
    · obtain ⟨x, rfl⟩ := exists_word 8 rfl hlen
      exact ⟨_, rfl, .bool x⟩
    · exact absurd rfl hpos
    · exact absurd rfl hpos
    · obtain ⟨x, rfl⟩ := exists_word 64 rfl hlen
      exact ⟨_, rfl, .uint64 x⟩
    · obtain ⟨x, rfl⟩ := exists_word 64 rfl hlen
      exact ⟨_, rfl, .int64 x⟩
    · obtain ⟨x, rfl⟩ := exists_word 64 rfl hlen
      exact ⟨_, rfl, .float64 x⟩
  · rintro ⟨v, rfl, hv⟩
    cases hv <;> simp only [GgufValueType.scalarSize, Except.ok.injEq] at hsize <;> subst hsize <;>
      first
        | exact absurd rfl hpos
        | exact length_littleEndian _ _

/-- Scalars one after the other. -/
theorem listed_length {size : ℕ} :
    (∃ us : List Unit, us.length = n ∧ Listed (fun _ b => b.length = size) us b) ↔
      b.length = n * size := by
  constructor
  · rintro ⟨us, rfl, h⟩
    induction h with
    | nil => simp
    | cons head _ ih => rw [List.length_append, head, ih, List.length_cons, Nat.add_one_mul, Nat.add_comm]
  · intro hlen
    induction n generalizing b with
    | zero =>
        rw [Nat.zero_mul] at hlen
        rw [List.eq_nil_of_length_eq_zero hlen]
        exact ⟨[], rfl, .nil⟩
    | succ n ih =>
        rw [Nat.add_one_mul] at hlen
        have hdrop : (b.drop size).length = n * size := by
          rw [List.length_drop]
          omega
        have htake : (b.take size).length = size := by
          rw [List.length_take]
          omega
        obtain ⟨us, hcount, hus⟩ := ih hdrop
        refine ⟨() :: us, by rw [List.length_cons, hcount], ?_⟩
        rw [← List.take_append_drop size b]
        exact .cons htake hus

/-- What follows the head of an array: strings, which are kept, or other elements,
which are not. -/
def ArrayHolds (code : BitVec 32) (count : BitVec 64) (v : GgufValue) (b : List Byte) : Prop :=
  (GgufValueType.ofCode code = .string ∧ ∃ ss, v = { type := .array, stringArray := ss } ∧
      ss.length = count.toNat ∧ Listed StringHolds ss b) ∨
    (GgufValueType.ofCode code ≠ .string ∧ v = { type := .array } ∧
      (GgufValueType.ofCode code).Known ∧ Elements (.ofCode code) count.toNat b)

theorem array_iff {v : GgufValue} : v.type = .array ∧ Holds v b ↔
    ∃ code count pb, ArrayHolds code count v pb ∧
      b = littleEndian 4 code ++ (littleEndian 8 count ++ pb) := by
  constructor
  · rintro ⟨htype, hv⟩
    cases hv with
    | strings hcode hcount h => exact ⟨_, _, _, Or.inl ⟨hcode, _, rfl, hcount, h⟩, rfl⟩
    | array hknown hcode hcount htypes h =>
        exact ⟨_, _, _, Or.inr ⟨hcode, rfl, hknown, _, hcount, htypes, h, rfl⟩, rfl⟩
    | _ => cases htype
  · rintro ⟨code, count, pb, ⟨hcode, ss, rfl, hcount, h⟩ | ⟨hcode, rfl, hknown, h⟩, rfl⟩
    · exact ⟨rfl, .strings hcode hcount h⟩
    · obtain ⟨items, hcount, htypes, h, rfl⟩ := h
      exact ⟨rfl, .array hknown hcode hcount htypes h⟩

/-- The bytes of an array. -/
theorem exists_array : (∃ v, v.type = .array ∧ Holds v b) ↔
    ∃ (code : BitVec 32) (count : BitVec 64) (pb : List Byte), (GgufValueType.ofCode code).Known ∧
      Elements (GgufValueType.ofCode code) count.toNat pb ∧
      b = littleEndian 4 code ++ (littleEndian 8 count ++ pb) := by
  simp only [array_iff]
  constructor
  · rintro ⟨v, code, count, pb, ⟨hcode, ss, -, hcount, h⟩ | ⟨-, -, hknown, h⟩, rfl⟩
    · refine ⟨code, count, pb, ?_, ?_, rfl⟩
      · rw [hcode]
        exact trivial
      · rw [hcode]
        exact (elements_iff fun b => exists_string).mp ⟨ss, hcount, h⟩
    · exact ⟨code, count, pb, hknown, h, rfl⟩
  · rintro ⟨code, count, pb, hknown, h, rfl⟩
    by_cases hcode : GgufValueType.ofCode code = .string
    · rw [hcode] at h
      obtain ⟨ss, hcount, hss⟩ := (elements_iff fun b => exists_string).mpr h
      exact ⟨_, code, count, pb, Or.inl ⟨hcode, ss, rfl, hcount, hss⟩, rfl⟩
    · exact ⟨_, code, count, pb, Or.inr ⟨hcode, rfl, hknown, h⟩, rfl⟩

end Qw3.Gguf
