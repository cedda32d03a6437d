import Mathlib.Algebra.GroupWithZero.Nat
import Mathlib.Algebra.Order.Group.Nat
import Mathlib.Data.List.ReduceOption
import Mathlib.Tactic.Common

/-!
# Snapshots of a prefix

`QwenExecutor::StateSnapshot` and what `prefix_state_storage.hpp` does with its tensors
without a backend.

* `Snapshot` — a snapshot over any kind of tensor: with memory, without, or its contents.
* `Snapshot.tensors`, `Snapshot.bytes` — the source's functions.
* `packed` — where each tensor is in a host buffer; the offsets are those of the loops of
  `stage_out` and of `restore`.
* `packed_map` — tensors of the same sizes are packed alike.
* `exists_packed` — every byte of the whole is a byte of one of the tensors.
* `Contents`, `view`, `stored` — tensors with their bytes, and the bytes side by side.
* `eq_of_stored_eq` — the bytes side by side and the shape determine the contents.
-/

namespace Qw3.Prefix

/-- `DeviceTensorDType`. -/
inductive DeviceTensorDType
  | f32 | f16 | bf16 | i32 | q8Kv | fp8E4M3
  deriving DecidableEq, Repr

/-- `DeviceTensor` without its memory. -/
structure Descriptor where
  count : ℕ
  elemSize : ℕ
  dtype : DeviceTensorDType
  deriving DecidableEq, Repr

/-- `count * elem_size`; the tensor is in memory, so it does not wrap. -/
def Descriptor.bytes (d : Descriptor) : ℕ := d.count * d.elemSize

/-- `DeviceTensor`: an allocation of the device. -/
structure DeviceTensor extends Descriptor where
  address : ℕ
  deriving DecidableEq, Repr

/-- What a snapshot says beside its tensors; leases, checkpoints and the draft model are shared
pointers. -/
structure Metadata where
  gcLease : Option ℕ := none
  repositoryCheckpoint : Option ℕ := none
  ready : Bool := false
  position : ℕ := 0
  kvLogicalPages : ℕ := 0
  mtpKvLogicalPages : ℕ := 0
  mtpPrefixLen : ℕ := 0
  mtpPayloadValidThrough : ℕ := 18446744073709551615
  kvmemRegisteredPos : ℕ := 0
  kvmemSelectionGeneration : ℕ := 0
  kvmemActive : Bool := false
  windowQueryPos : ℕ := 0
  windowPageCount : ℕ := 0
  windowMropeNext : ℕ := 0
  windowMropeAppendActive : Bool := false
  windowMropeAppendSourceNext : ℕ := 0
  windowMropeAppendDelta : ℤ × ℤ × ℤ := (0, 0, 0)
  deriving DecidableEq, Repr

/-- `copy_metadata`, field by field. -/
def copyMetadata (src : Metadata) : Metadata where
  gcLease := src.gcLease
  repositoryCheckpoint := src.repositoryCheckpoint
  ready := src.ready
  position := src.position
  kvLogicalPages := src.kvLogicalPages
  mtpKvLogicalPages := src.mtpKvLogicalPages
  mtpPrefixLen := src.mtpPrefixLen
  mtpPayloadValidThrough := src.mtpPayloadValidThrough
  kvmemRegisteredPos := src.kvmemRegisteredPos
  kvmemSelectionGeneration := src.kvmemSelectionGeneration
  kvmemActive := src.kvmemActive
  windowQueryPos := src.windowQueryPos
  windowPageCount := src.windowPageCount
  windowMropeNext := src.windowMropeNext
  windowMropeAppendActive := src.windowMropeAppendActive
  windowMropeAppendSourceNext := src.windowMropeAppendSourceNext
  windowMropeAppendDelta := src.windowMropeAppendDelta

/-- No field is left out. -/
@[simp] theorem copyMetadata_eq (m : Metadata) : copyMetadata m = m := rfl

/-- `DFlashExecutor::StateSnapshot`. -/
structure Draft (τ : Type) where
  weights : Option ℕ
  backend : Option ℕ
  nextPosition : ℕ
  rows : ℕ
  ropeNext : ℕ
  rawKeys : List (Option τ)
  values : List (Option τ)
  deriving DecidableEq, Repr

/-- `StateSnapshot`. -/
structure Snapshot (τ : Type) where
  metadata : Metadata := {}
  h : Option τ := none
  mtpPrefixH : Option τ := none
  dflash : Option (Draft τ) := none
  recurrentStates : List (Option τ) := []
  convStates : List (Option τ) := []
  deriving DecidableEq, Repr

variable {τ υ : Type}

/-- Each tensor replaced. -/
def Draft.map (f : τ → υ) (d : Draft τ) : Draft υ :=
  ⟨d.weights, d.backend, d.nextPosition, d.rows, d.ropeNext, d.rawKeys.map (Option.map f), d.values.map (Option.map f)⟩

namespace Snapshot

/-- Each tensor replaced. -/
def map (f : τ → υ) (s : Snapshot τ) : Snapshot υ where
  metadata := s.metadata
  h := s.h.map f
  mtpPrefixH := s.mtpPrefixH.map f
  dflash := s.dflash.map (Draft.map f)
  recurrentStates := s.recurrentStates.map (Option.map f)
  convStates := s.convStates.map (Option.map f)

/-- The tensors that only this snapshot has: `unique_ptr`s. -/
def owned (s : Snapshot τ) : List (Option τ) := s.h :: s.mtpPrefixH :: (s.recurrentStates ++ s.convStates)

/-- The tensors that draft states share. -/
def draft (s : Snapshot τ) : List (Option τ) := s.dflash.elim [] fun d => d.rawKeys ++ d.values

/-- `tensors`, in the order in which the function is called on them. -/
def tensors (s : Snapshot τ) : List (Option τ) := s.owned ++ s.draft

theorem tensors_map (f : τ → υ) (s : Snapshot τ) : (s.map f).tensors = s.tensors.map (Option.map f) := by
  unfold tensors owned draft map
  cases s.dflash with
  | none => simp
  | some d => simp [Draft.map]

theorem map_map {ω : Type} (f : τ → υ) (g : υ → ω) (s : Snapshot τ) : (s.map f).map g = s.map (g ∘ f) := by
  unfold map Draft.map
  simp [Function.comp_def]

/-- Snapshots that are the same but for what their tensors are. -/
theorem map_congr {f g : τ → υ} {s : Snapshot τ} (h : ∀ t ∈ s.tensors.reduceOption, f t = g t) : s.map f = s.map g := by
  have hlist : ∀ l : List (Option τ), (∀ t, some t ∈ l → f t = g t) → l.map (Option.map f) = l.map (Option.map g) := by
    intro l hl
    refine List.map_congr_left fun o ho => ?_
    cases o with
    | none => rfl
    | some t => exact congrArg some (hl t ho)
  have hmem : ∀ t, some t ∈ s.tensors → f t = g t := fun t ht => h t (List.reduceOption_mem_iff.mpr ht)
  unfold tensors owned draft at hmem
  obtain ⟨metadata, h', mtp, dflash, recurrent, conv⟩ := s
  unfold map
  congr 1
  · cases h' with
    | none => rfl
    | some t => exact congrArg some (hmem t (by simp))
  · cases mtp with
    | none => rfl
    | some t => exact congrArg some (hmem t (by simp))
  · cases dflash with
    | none => rfl
    | some d =>
        refine congrArg some ?_
        unfold Draft.map
        rw [hlist d.rawKeys fun t ht => hmem t (by simp [ht]), hlist d.values fun t ht => hmem t (by simp [ht])]
  · exact hlist recurrent fun t ht => hmem t (by simp [ht])
  · exact hlist conv fun t ht => hmem t (by simp [ht])

end Snapshot

/-! ## Packing -/

/-- The loop of `stage_out` and `restore`: the tensors with their offsets. -/
def packed (size : τ → ℕ) : ℕ → List τ → List (ℕ × τ)
  | _, [] => []
  | offset, t :: l => (offset, t) :: packed size (offset + size t) l

section Packing

variable {size : τ → ℕ} {l : List τ} {t : τ} {offset o : ℕ}

/-- What the tensors take together. -/
def total (size : τ → ℕ) (l : List τ) : ℕ := (l.map size).sum

@[simp] theorem total_cons : total size (t :: l) = size t + total size l := rfl

theorem packed_map (f : υ → τ) (l : List υ) (offset : ℕ) :
    packed size offset (l.map f) = (packed (size ∘ f) offset l).map fun p => (p.1, f p.2) := by
  induction l generalizing offset with
  | nil => rfl
  | cons t l ih =>
      rw [List.map_cons, packed, packed, ih, List.map_cons]
      rfl

theorem map_packed_snd : (packed size offset l).map Prod.snd = l := by
  induction l generalizing offset with
  | nil => rfl
  | cons t l ih => rw [packed, List.map_cons, ih]

/-- Every tensor lies in the whole. -/
theorem le_of_mem_packed (h : (o, t) ∈ packed size offset l) : offset ≤ o ∧ o + size t ≤ offset + total size l := by
  induction l generalizing offset with
  | nil => cases h
  | cons u l ih =>
      rw [total_cons]
      rcases List.mem_cons.mp h with heq | hrest
      · obtain ⟨rfl, rfl⟩ := Prod.mk.inj heq
        omega
      · have hle := ih hrest
        omega

/-- Every byte of the whole is one of a tensor's. -/
theorem exists_packed {p : ℕ} (hoffset : offset ≤ p) (hp : p < offset + total size l) :
    ∃ o t, (o, t) ∈ packed size offset l ∧ o ≤ p ∧ p < o + size t := by
  induction l generalizing offset with
  | nil => exact absurd hp (Nat.not_lt.mpr hoffset)
  | cons u l ih =>
      rw [total_cons] at hp
      by_cases hin : p < offset + size u
      · exact ⟨offset, u, List.mem_cons_self, hoffset, hin⟩
      · obtain ⟨o, t, hmem, hbetween⟩ := ih (Nat.le_of_not_lt hin) (by omega)
        exact ⟨o, t, List.mem_cons_of_mem _ hmem, hbetween⟩

end Packing

/-! ## Contents -/

/-- The tensors that are there. -/
def present (s : Snapshot τ) : List τ := s.tensors.reduceOption

theorem present_map (f : τ → υ) (s : Snapshot τ) : present (s.map f) = (present s).map f := by
  unfold present
  rw [Snapshot.tensors_map, List.reduceOption_map]

/-- A tensor with its bytes. -/
structure Contents extends Descriptor where
  data : List UInt8
  length_eq : data.length = toDescriptor.bytes

/-- What a tensor has in memory. -/
def contents (device : ℕ → ℕ → UInt8) (t : DeviceTensor) : Contents :=
  ⟨t.toDescriptor, (List.range t.bytes).map (device t.address), by simp⟩

def view (device : ℕ → ℕ → UInt8) (s : Snapshot DeviceTensor) : Snapshot Contents := s.map (contents device)

/-- The bytes side by side. -/
def stored (v : Snapshot Contents) : List UInt8 := ((present v).map Contents.data).flatten

theorem length_flatten_data (l : List Contents) : (l.map Contents.data).flatten.length = total (fun c => c.bytes) l := by
  induction l with
  | nil => rfl
  | cons c l ih => rw [List.map_cons, List.flatten_cons, List.length_append, ih, c.length_eq, total_cons]

/-- A byte of the whole and of the tensor that it belongs to. -/
theorem getElem?_flatten_data {l : List Contents} {offset o k : ℕ} {c : Contents}
    (h : (o, c) ∈ packed (fun c => c.bytes) offset l) (hk : k < c.bytes) :
    (l.map Contents.data).flatten[o - offset + k]? = c.data[k]? := by
  induction l generalizing offset with
  | nil => cases h
  | cons b l ih =>
      rw [List.map_cons, List.flatten_cons]
      rcases List.mem_cons.mp h with heq | hrest
      · obtain ⟨rfl, rfl⟩ := Prod.mk.inj heq
        rw [Nat.sub_self, Nat.zero_add, List.getElem?_append_left (c.length_eq ▸ hk)]
      · have hle : offset + b.bytes ≤ o := (le_of_mem_packed hrest).1
        rw [List.getElem?_append_right (by rw [b.length_eq]; omega), b.length_eq, ← ih hrest]
        congr 1
        show o - offset + k - b.bytes = o - (offset + b.bytes) + k
        omega

/-- Contents of the same shape are the same when their bytes side by side are. -/
theorem eq_of_flatten_eq {l m : List Contents} (hshape : l.map Contents.toDescriptor = m.map Contents.toDescriptor)
    (hdata : (l.map Contents.data).flatten = (m.map Contents.data).flatten) : l = m := by
  induction l generalizing m with
  | nil => exact (List.map_eq_nil_iff.mp hshape.symm).symm
  | cons c l ih =>
      cases m with
      | nil => cases hshape
      | cons d m =>
          obtain ⟨hhead, htail⟩ := List.cons.inj hshape
          rw [List.map_cons, List.map_cons, List.flatten_cons, List.flatten_cons] at hdata
          have hlength : c.data.length = d.data.length := by rw [c.length_eq, d.length_eq, hhead]
          obtain ⟨hfirst, hrest⟩ := List.append_inj hdata hlength
          have hcd : c = d := by
            cases c
            cases d
            dsimp only at hhead hfirst
            subst hhead hfirst
            rfl
          rw [hcd, ih htail hrest]

/-- Lists that have tensors at the same places, and the same ones. -/
theorem eq_of_reduceOption_eq {f : τ → υ} {l m : List (Option τ)} (hshape : l.map (Option.map f) = m.map (Option.map f))
    (h : l.reduceOption = m.reduceOption) : l = m := by
  induction l generalizing m with
  | nil => exact (List.map_eq_nil_iff.mp hshape.symm).symm
  | cons o l ih =>
      cases m with
      | nil => cases hshape
      | cons q m =>
          obtain ⟨hhead, htail⟩ := List.cons.inj hshape
          cases o with
          | none =>
              obtain rfl := Option.map_eq_none_iff.mp hhead.symm
              rw [ih htail (by simpa using h)]
          | some a =>
              obtain ⟨b, rfl, -⟩ := Option.map_eq_some_iff.mp hhead.symm
              rw [List.reduceOption_cons_of_some, List.reduceOption_cons_of_some] at h
              obtain ⟨rfl, hrest⟩ := List.cons.inj h
              rw [ih htail hrest]

/-- Snapshots of the same shape are the same when their tensors are. -/
theorem Snapshot.eq_of_present_eq {f : τ → υ} {s s' : Snapshot τ} (hshape : s.map f = s'.map f)
    (h : present s = present s') : s = s' := by
  have htensors : s.tensors = s'.tensors := by
    refine eq_of_reduceOption_eq (f := f) ?_ h
    rw [← Snapshot.tensors_map, ← Snapshot.tensors_map, hshape]
  obtain ⟨metadata, h₁, mtp, dflash, recurrent, conv⟩ := s
  obtain ⟨metadata', h₁', mtp', dflash', recurrent', conv'⟩ := s'
  unfold Snapshot.map at hshape
  dsimp only at hshape
  obtain ⟨rfl, -, -, hdraft, hrecurrent, hconv⟩ := Snapshot.mk.inj hshape
  have hlength : recurrent.length = recurrent'.length := by simpa using congrArg List.length hrecurrent
  have hlength' : conv.length = conv'.length := by simpa using congrArg List.length hconv
  unfold Snapshot.tensors Snapshot.owned Snapshot.draft at htensors
  dsimp only at htensors hdraft
  obtain ⟨howned, hshared⟩ := List.append_inj htensors (by simp [hlength, hlength'])
  obtain ⟨rfl, hrest⟩ := List.cons.inj howned
  obtain ⟨rfl, hstates⟩ := List.cons.inj hrest
  obtain ⟨rfl, rfl⟩ := List.append_inj hstates hlength
  congr 1
  cases dflash with
  | none => exact (Option.map_eq_none_iff.mp hdraft.symm).symm
  | some d =>
      obtain ⟨d', rfl, hd⟩ := Option.map_eq_some_iff.mp hdraft.symm
      obtain ⟨weights, backend, next, rows, rope, keys, values⟩ := d
      obtain ⟨weights', backend', next', rows', rope', keys', values'⟩ := d'
      unfold Draft.map at hd
      dsimp only at hd
      obtain ⟨rfl, rfl, rfl, rfl, rfl, hkeys, -⟩ := Draft.mk.inj hd
      have hlength : keys.length = keys'.length := by simpa using (congrArg List.length hkeys).symm
      obtain ⟨rfl, rfl⟩ := List.append_inj hshared hlength
      rfl

/-- Contents of the same shape are the same when their bytes side by side are. -/
theorem eq_of_stored_eq {v w : Snapshot Contents}
    (hshape : v.map Contents.toDescriptor = w.map Contents.toDescriptor) (h : stored v = stored w) : v = w := by
  refine Snapshot.eq_of_present_eq hshape (eq_of_flatten_eq ?_ h)
  rw [← present_map, ← present_map, hshape]

end Qw3.Prefix
