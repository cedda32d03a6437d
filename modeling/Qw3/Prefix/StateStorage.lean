import Qw3.Lib.Machine
import Qw3.Lib.Program
import Qw3.Prefix.Snapshot

/-!
# Cold storage of snapshots

`prefix_state_storage.hpp`: a snapshot is copied into a host buffer, its tensors are given
away, and it is copied back into tensors that were recycled or are new.  Copies are asked
for and done later, in the order in which they were asked for; any call of the backend may
fail.

* `stageOut`, `finishOffload`, `restore` — the source's functions.
* `storageMachine` — their calls in any order, with the copies going on meanwhile and
  everything else in memory changing.
* `Stored` — what holds of a storage of a snapshot with given contents.
* `restore_spec` — a restored snapshot has the contents.
* `coldRoundTrip` — **it can be restored, and what is restored is what was stored**.
-/

namespace Qw3.Prefix.StateStorage

/-! ## Memory -/

/-- The contents of the allocations of the device and of the host buffers. -/
structure Memory where
  device : ℕ → ℕ → UInt8
  hosts : ℕ → ℕ → UInt8

/-- A copy of a tensor's first bytes to a host buffer or back. -/
inductive Copy
  | toHost (address bytes host offset : ℕ)
  | fromHost (address bytes host offset : ℕ)
  deriving DecidableEq, Repr

/-- Where the bytes in the host buffer end. -/
def Copy.hostEnd : Copy → ℕ
  | .toHost _ n _ offset | .fromHost _ n _ offset => offset + n

/-- Some bytes overwritten. -/
def write (mem : ℕ → UInt8) (offset n : ℕ) (source : ℕ → UInt8) (p : ℕ) : UInt8 :=
  if offset ≤ p ∧ p < offset + n then source (p - offset) else mem p

/-- A copy is done. -/
def Memory.perform (m : Memory) : Copy → Memory
  | .toHost a n i offset => { m with
      hosts := Function.update m.hosts i (write (m.hosts i) offset n (m.device a)) }
  | .fromHost a n i offset => { m with
      device := Function.update m.device a (write (m.device a) 0 n fun k => m.hosts i (offset + k)) }

/-! ## The source -/

/-- `PrefixStateStorage`, with the memory. -/
structure Storage where
  gpu : Option (Snapshot DeviceTensor)
  layout : Option (Snapshot Descriptor)
  host : Option ℕ
  copying : Bool
  memory : Memory
  /-- copies that are not done yet -/
  queue : List Copy
  /-- every copy that was asked for -/
  asked : List Copy
  /-- the next address that the device gives out -/
  allocated : ℕ

/-- An exception. -/
inductive Failure
  | logic (what : String)
  | runtime (what : String)
  /-- what `require` throws -/
  | backend
  deriving DecidableEq, Repr

/-- A storage and how the next calls of the backend come out; they succeed when the list
is used up. -/
abbrev Run := Storage × List Bool

/-- A call of the backend, with what it does if it succeeds. -/
def call {α : Type} (f : Storage → α × Storage) : Program Run Failure α :=
  ExceptT.mk fun r =>
    match r.2 with
    | false :: rest => (.error .backend, (r.1, rest))
    | true :: rest => (.ok (f r.1).1, ((f r.1).2, rest))
    | [] => (.ok (f r.1).1, ((f r.1).2, []))

/-- `begin_kv_transfer_from_device` and `record_kv_transfer_fence`. -/
def order : Program Run Failure Unit := call fun s => ((), s)

/-- `copy_bytes_to_host_async` and `copy_bytes_from_host_async`. -/
def ask (c : Copy) : Program Run Failure Unit :=
  call fun s => ((), { s with queue := s.queue ++ [c], asked := s.asked ++ [c] })

/-- Everything asked for is done. -/
def Storage.flush (s : Storage) : Storage := { s with memory := s.queue.foldl Memory.perform s.memory, queue := [] }

/-- `wait_kv_transfer` and `wait_kv_transfer_fence`. -/
def wait : Program Run Failure Unit := call fun s => ((), s.flush)

/-- The `catch` block of a transfer. -/
def cleanUp {α : Type} (e : Failure) : Program Run Failure α := do
  tryCatch wait fun _ => pure ()
  throw e

/-- `bytes`. -/
def snapshotBytes (s : Snapshot DeviceTensor) : ℕ := total (fun t => t.bytes) (present s)

/-- Each tensor with its offset in the host buffer. -/
def places (s : Snapshot DeviceTensor) : List (ℕ × DeviceTensor) := packed (fun t => t.bytes) 0 (present s)

/-- `stage_out`, where `hostBytes` says how large the host buffers are. -/
def stageOut (hostBytes : ℕ → ℕ) (host : Option ℕ) : Program Run Failure Unit := do
  let s := (← get).1
  match s.gpu with
  | none => throw (.logic "prefix snapshot is already cold")
  | some gpu =>
      if s.host.isSome then
        modify fun r => ({ r.1 with copying := true }, r.2)
      else
        match host with
        | none => throw (.runtime "prefix host snapshot buffer is too small")
        | some i =>
            if hostBytes i < snapshotBytes gpu then
              throw (.runtime "prefix host snapshot buffer is too small")
            else
              tryCatch (do
                order
                (places gpu).forM fun p => ask (.toHost p.2.address p.2.bytes i p.1)
                order) cleanUp
              modify fun r => ({ r.1 with
                host := some i
                layout := some { gpu.map DeviceTensor.toDescriptor with metadata := copyMetadata gpu.metadata }
                copying := true }, r.2)

/-- `finish_offload`, where `borrowed` says whether someone else holds the snapshot. -/
def finishOffload (borrowed : Bool) : Program Run Failure (Option (Snapshot DeviceTensor)) := do
  let s := (← get).1
  match s.gpu with
  | none => return none
  | some gpu =>
      if s.host = none ∨ borrowed then return none
      else
        wait
        modify fun r => ({ r.1 with copying := false, gpu := none }, r.2)
        return some gpu

/-- `scratch_like`. -/
def scratchLike (source : Descriptor) : Program Run Failure DeviceTensor :=
  call fun s =>
    (if source.dtype = .bf16 then ⟨⟨source.count, 2, .bf16⟩, s.allocated⟩ else ⟨⟨source.count, 4, .f32⟩, s.allocated⟩,
      { s with allocated := s.allocated + 1 })

/-- What `prepare` throws. -/
def refuse (bad : Prop) [Decidable bad] (what : String) : Program Run Failure Unit :=
  if bad then throw (.runtime what) else pure ()

/-- The recycled tensor if it has the right shape, a new one otherwise. -/
def reuse (dst : Option DeviceTensor) (src : Descriptor) : Program Run Failure DeviceTensor :=
  match dst with
  | none => scratchLike src
  | some t => if t.toDescriptor = src then pure t else scratchLike src

/-- `prepare`. -/
def prepare (dst : Option DeviceTensor) : Option Descriptor → Program Run Failure (Option DeviceTensor)
  | none => pure none
  | some src => do
      refuse (src.dtype ≠ .f32 ∧ src.dtype ≠ .bf16) "unsupported prefix snapshot dtype"
      let t ← reuse dst src
      refuse (t.dtype ≠ src.dtype ∨ t.elemSize ≠ src.elemSize) "prefix snapshot restoration changed dtype"
      return some t

/-- `resize`, and `prepare` for each. -/
def prepareAll : List (Option DeviceTensor) → List (Option Descriptor) → Program Run Failure (List (Option DeviceTensor))
  | _, [] => pure []
  | dst, src :: srcs => do
      let t ← prepare dst.head?.join src
      let ts ← prepareAll dst.tail srcs
      return t :: ts

/-- The draft state: its tensors are always new. -/
def allocateDraft : Option (Draft Descriptor) → Program Run Failure (Option (Draft DeviceTensor))
  | none => pure none
  | some d => do
      let rawKeys ← prepareAll [] d.rawKeys
      let values ← prepareAll [] d.values
      return some ⟨d.weights, d.backend, d.nextPosition, d.rows, d.ropeNext, rawKeys, values⟩

/-- The target: recycled tensors where they have the right shape, otherwise new ones. -/
def prepareSnapshot (recycled : Snapshot DeviceTensor) (layout : Snapshot Descriptor) :
    Program Run Failure (Snapshot DeviceTensor) := do
  let h ← prepare recycled.h layout.h
  let mtpPrefixH ← prepare recycled.mtpPrefixH layout.mtpPrefixH
  let recurrentStates ← prepareAll recycled.recurrentStates layout.recurrentStates
  let convStates ← prepareAll recycled.convStates layout.convStates
  let dflash ← allocateDraft layout.dflash
  return ⟨copyMetadata layout.metadata, h, mtpPrefixH, dflash, recurrentStates, convStates⟩

/-- `restore`. -/
def restore (recycled : Option (Snapshot DeviceTensor)) : Program Run Failure (Snapshot DeviceTensor) := do
  let s := (← get).1
  match s.gpu with
  | some gpu => return gpu
  | none =>
      match s.host, s.layout with
      | some i, some layout =>
          let next ← prepareSnapshot (recycled.getD {}) layout
          tryCatch (do
            order
            (places next).forM fun p => ask (.fromHost p.2.address p.2.bytes i p.1)
            wait) cleanUp
          modify fun r => ({ r.1 with gpu := some next }, r.2)
          return next
      | _, _ => throw (.logic "prefix snapshot has no backing")

/-! ## Runs -/

/-- The addresses of a snapshot's tensors. -/
def addresses (l : List (Option DeviceTensor)) : List ℕ := l.reduceOption.map DeviceTensor.address

/-- The addresses that are shown. -/
def Storage.gpuAddresses (s : Storage) : List ℕ := s.gpu.elim [] fun g => addresses g.tensors

/-- A snapshot that may be recycled: its own tensors are allocations of the device, and no
two are one. -/
def Recyclable (s : Storage) (r : Snapshot DeviceTensor) : Prop :=
  (addresses r.owned).Nodup ∧ ∀ a ∈ addresses r.owned, a < s.allocated

instance (s : Storage) (r : Snapshot DeviceTensor) : Decidable (Recyclable s r) :=
  inferInstanceAs (Decidable (_ ∧ _))

/-- The calls, with how the calls of the backend come out, and what happens besides. -/
inductive StorageAction
  | stageOut (host : Option ℕ) (outcomes : List Bool)
  | finishOffload (borrowed : Bool) (outcomes : List Bool)
  | restore (recycled : Option (Snapshot DeviceTensor)) (outcomes : List Bool)
  /-- the next copy is done -/
  | transfer
  /-- memory is used elsewhere -/
  | elsewhere (memory : Memory) (allocations : ℕ)

/-- What is not the storage's own may change. -/
def Storage.elsewhere (s : Storage) (memory : Memory) (allocations : ℕ) : Storage :=
  { s with
    memory := {
      device := fun a => if a ∈ s.gpuAddresses then s.memory.device a else memory.device a
      hosts := fun i => if s.host = some i then s.memory.hosts i else memory.hosts i }
    allocated := s.allocated + allocations }

/-- One of them; `hostBytes` says how large the host buffers are. -/
def storageStep (hostBytes : ℕ → ℕ) (s : Storage) : StorageAction → Option Storage
  | .stageOut host outcomes => some ((stageOut hostBytes host).exec (s, outcomes)).2.1
  | .finishOffload borrowed outcomes => some ((finishOffload borrowed).exec (s, outcomes)).2.1
  | .restore recycled outcomes =>
      if ∀ r ∈ recycled, Recyclable s r then some ((restore recycled).exec (s, outcomes)).2.1 else none
  | .transfer =>
      match s.queue with
      | [] => none
      | c :: rest => some { s with memory := s.memory.perform c, queue := rest }
  | .elsewhere memory allocations => some (s.elsewhere memory allocations)

/-- A storage that was given a snapshot with the contents `v`. -/
def storageMachine (hostBytes : ℕ → ℕ) (v : Snapshot Contents) : Machine Storage StorageAction where
  init s := (∃ g, s.gpu = some g ∧ view s.memory.device g = v) ∧ s.layout = none ∧ s.host = none ∧ s.copying = false ∧
    s.queue = [] ∧ s.asked = []
  step := storageStep hostBytes

/-! ## What holds of a storage -/

/-- A copy covers a byte of a host buffer. -/
def Copy.Covers (i p : ℕ) : Copy → Prop
  | .toHost _ n j offset => j = i ∧ offset ≤ p ∧ p < offset + n
  | .fromHost .. => False

/-- A copy that is not done yet: it brings what is stored, or there is nothing to be
shown. -/
def Right (v : Snapshot Contents) (s : Storage) : Copy → Prop
  | .toHost a n _ offset => a ∈ s.gpuAddresses ∧ ∀ k < n, (stored v)[offset + k]? = some (s.memory.device a k)
  | .fromHost .. => s.gpu = none

/-- A storage of a snapshot with given contents. -/
structure Stored (v : Snapshot Contents) (s : Storage) : Prop where
  shown : ∀ g ∈ s.gpu, view s.memory.device g = v
  layout : ∀ i ∈ s.host, s.layout = some (v.map Contents.toDescriptor)
  /-- a byte is in the host buffer, or on the way there -/
  backed : ∀ i ∈ s.host, ∀ p b, (stored v)[p]? = some b → s.memory.hosts i p = b ∨ ∃ c ∈ s.queue, c.Covers i p
  cold : s.gpu = none → s.host.isSome
  right : ∀ c ∈ s.queue, Right v s c
  asked : ∀ c ∈ s.asked, c.hostEnd ≤ (stored v).length

section Invariant

variable {v : Snapshot Contents} {s : Storage} {c : Copy} {rest : List Copy} {g : Snapshot DeviceTensor}

/-- A copy that is asked for. -/
theorem Stored.ask (h : Stored v s) (hright : Right v s c) (hend : c.hostEnd ≤ (stored v).length) :
    Stored v { s with queue := s.queue ++ [c], asked := s.asked ++ [c] } := by
  have hkept : ∀ d, Right v s d →
      Right v { s with queue := s.queue ++ [c], asked := s.asked ++ [c] } d := by
    intro d hd
    cases d with
    | toHost => exact hd
    | fromHost => exact hd
  refine ⟨h.shown, h.layout, fun i hi p b hb => ?_, h.cold, fun d hd => ?_, fun d hd => ?_⟩
  · rcases h.backed i hi p b hb with hmem | ⟨d, hd, hcovers⟩
    · exact .inl hmem
    · exact .inr ⟨d, List.mem_append_left _ hd, hcovers⟩
  · rcases List.mem_append.mp hd with hd | hd
    · exact hkept d (h.right d hd)
    · exact List.mem_singleton.mp hd ▸ hkept c hright
  · rcases List.mem_append.mp hd with hd | hd
    · exact h.asked d hd
    · exact List.mem_singleton.mp hd ▸ hend

/-- A copy that is done. -/
theorem Stored.perform (h : Stored v s) (hqueue : s.queue = c :: rest) :
    Stored v { s with memory := s.memory.perform c, queue := rest } := by
  have hright := h.right c (hqueue ▸ List.mem_cons_self)
  have hrest : ∀ d ∈ rest, Right v s d := fun d hd => h.right d (hqueue ▸ List.mem_cons_of_mem _ hd)
  have hbacked := h.backed
  rw [hqueue] at hbacked
  cases c with
  | toHost a n j offset =>
      obtain ⟨-, hbytes⟩ := hright
      refine ⟨h.shown, h.layout, fun i hi p b hb => ?_, h.cold, fun d hd => ?_, h.asked⟩
      · by_cases hcovered : j = i ∧ offset ≤ p ∧ p < offset + n
        · obtain ⟨rfl, hle, hlt⟩ := hcovered
          have hbyte := hbytes (p - offset) (by omega)
          rw [Nat.add_sub_cancel' hle, hb] at hbyte
          left
          show Function.update s.memory.hosts j _ j p = b
          rw [Function.update_self, write, if_pos ⟨hle, hlt⟩]
          exact (Option.some.inj hbyte).symm
        · rcases hbacked i hi p b hb with hmem | ⟨d, hd, hcovers⟩
          · left
            show Function.update s.memory.hosts j _ i p = b
            by_cases hij : i = j
            · subst hij
              rw [Function.update_self, write, if_neg fun hin => hcovered ⟨rfl, hin⟩]
              exact hmem
            · rw [Function.update_of_ne hij]
              exact hmem
          · rcases List.mem_cons.mp hd with rfl | hd
            · exact absurd hcovers hcovered
            · exact .inr ⟨d, hd, hcovers⟩
      · have hd' := hrest d hd
        cases d with
        | toHost => exact hd'
        | fromHost => exact hd'
  | fromHost a n j offset =>
      refine ⟨fun g hg => ?_, h.layout, fun i hi p b hb => ?_, h.cold, fun d hd => ?_, h.asked⟩
      · rw [show s.gpu = none from hright] at hg
        cases hg
      · rcases hbacked i hi p b hb with hmem | ⟨d, hd, hcovers⟩
        · exact .inl hmem
        · rcases List.mem_cons.mp hd with rfl | hd
          · exact hcovers.elim
          · exact .inr ⟨d, hd, hcovers⟩
      · have hd' := hrest d hd
        cases d with
        | toHost b m i o =>
            have hnone : s.gpuAddresses = [] := by
              rw [Storage.gpuAddresses, show s.gpu = none from hright]
              rfl
            exact absurd hd'.1 (hnone ▸ List.not_mem_nil)
        | fromHost => exact hd'

theorem Stored.flush (h : Stored v s) : Stored v s.flush := by
  induction hqueue : s.queue generalizing s with
  | nil =>
      have hsame : s.flush = s := by
        unfold Storage.flush
        rw [hqueue]
        cases s
        dsimp only at hqueue
        subst hqueue
        rfl
      rwa [hsame]
  | cons c rest ih =>
      have hnext : s.flush = Storage.flush { s with memory := s.memory.perform c, queue := rest } := by
        unfold Storage.flush
        rw [hqueue]
        rfl
      rw [hnext]
      exact ih (h.perform hqueue) rfl

/-- The rest of memory does not matter. -/
theorem Stored.elsewhere (h : Stored v s) (memory : Memory) (allocations : ℕ) :
    Stored v (s.elsewhere memory allocations) := by
  have hdevice : ∀ a ∈ s.gpuAddresses, (s.elsewhere memory allocations).memory.device a = s.memory.device a :=
    fun a ha => if_pos ha
  refine ⟨fun g hg => ?_, h.layout, fun i hi p b hb => ?_, h.cold, fun c hc => ?_, h.asked⟩
  · rw [← h.shown g hg]
    refine Snapshot.map_congr fun t ht => ?_
    have haddress : t.address ∈ s.gpuAddresses := by
      rw [Storage.gpuAddresses, show s.gpu = some g from hg]
      exact List.mem_map_of_mem ht
    unfold contents
    simp only [hdevice _ haddress]
  · have hsame : (s.elsewhere memory allocations).memory.hosts i = s.memory.hosts i := if_pos hi
    rw [hsame]
    exact h.backed i hi p b hb
  · have hright := h.right c hc
    cases c with
    | toHost a n j offset => exact ⟨hright.1, fun k hk => (hright.2 k hk).trans (by rw [hdevice a hright.1])⟩
    | fromHost => exact hright

/-- A byte of the whole in memory. -/
theorem getElem?_stored_view (device : ℕ → ℕ → UInt8) {o k : ℕ} {t : DeviceTensor} (hp : (o, t) ∈ places g)
    (hk : k < t.bytes) : (stored (view device g))[o + k]? = some (device t.address k) := by
  have hplace : (o, contents device t) ∈ packed (fun c : Contents => c.bytes) 0 (present (view device g)) := by
    rw [view, present_map, packed_map]
    exact List.mem_map_of_mem (f := fun p => (p.1, contents device p.2)) hp
  have hbyte := getElem?_flatten_data hplace hk
  rw [Nat.sub_zero] at hbyte
  rw [stored, hbyte]
  simp [contents, hk]

theorem Stored.place (h : Stored v s) (hg : s.gpu = some g) {o k : ℕ} {t : DeviceTensor} (hp : (o, t) ∈ places g)
    (hk : k < t.bytes) : (stored v)[o + k]? = some (s.memory.device t.address k) := by
  rw [← h.shown g hg]
  exact getElem?_stored_view _ hp hk

/-- As many bytes as the tensors have. -/
theorem snapshotBytes_eq (hshape : g.map DeviceTensor.toDescriptor = v.map Contents.toDescriptor) :
    snapshotBytes g = (stored v).length := by
  have hpresent : (present g).map DeviceTensor.toDescriptor = (present v).map Contents.toDescriptor := by
    rw [← present_map, ← present_map, hshape]
  have hsizes := congrArg (List.map Descriptor.bytes) hpresent
  rw [List.map_map, List.map_map] at hsizes
  unfold snapshotBytes stored
  rw [length_flatten_data]
  exact congrArg List.sum hsizes

theorem Stored.shape (h : Stored v s) (hg : s.gpu = some g) :
    g.map DeviceTensor.toDescriptor = v.map Contents.toDescriptor := by
  rw [← h.shown g hg, view, Snapshot.map_map]
  rfl

end Invariant

/-! ## The calls of the backend -/

section Calls

open Program

variable {α : Type} {P E : Storage → Prop} {l : List Bool}

/-- The outcomes are what is left of `l`. -/
def Within (l : List Bool) (P : Storage → Prop) (r : Run) : Prop := P r.1 ∧ r.2 <:+ l

/-- One of the outcomes was a failure. -/
def Failed (l : List Bool) (E : Storage → Prop) (r : Run) : Prop := E r.1 ∧ false ∈ l

theorem call_spec {f : Storage → α × Storage} {Q : α → Storage → Prop} (hok : ∀ s, P s → Q (f s).1 (f s).2)
    (hfail : ∀ s, P s → E s) : Triple (Within l P) (call f) (fun a => Within l (Q a)) fun _ => Failed l E := by
  rintro ⟨s, outcomes⟩ ⟨hs, hl⟩
  unfold exec call
  dsimp only [ExceptT.mk]
  match outcomes with
  | [] => exact ⟨hok s hs, List.nil_suffix⟩
  | true :: rest => exact ⟨hok s hs, (List.suffix_cons _ _).trans hl⟩
  | false :: rest => exact ⟨hfail s hs, hl.subset List.mem_cons_self⟩

theorem order_spec (hfail : ∀ s, P s → E s) : Triple (Within l P) order (fun _ => Within l P) fun _ => Failed l E :=
  call_spec (Q := fun _ => P) (fun _ hs => hs) hfail

theorem wait_spec {Q : Storage → Prop} (hok : ∀ s, P s → Q s.flush) (hfail : ∀ s, P s → E s) :
    Triple (Within l P) wait (fun _ => Within l Q) fun _ => Failed l E :=
  call_spec (Q := fun _ => Q) hok hfail

/-- What is known of the result alone. -/
theorem within_and {φ : Prop} {x : Program Run Failure α} {Q : α → Run → Prop} {F : Failure → Run → Prop}
    (h : φ → Triple (Within l P) x Q F) : Triple (Within l fun s => φ ∧ P s) x Q F :=
  fun r hr => h hr.1.1 r ⟨hr.1.2, hr.2⟩

/-- Whatever becomes of the clean-up. -/
theorem cleanUp_spec (hflush : ∀ s, E s → E s.flush) (e : Failure) {Q : α → Run → Prop} :
    Triple (Failed l E) (cleanUp e) Q fun _ => Failed l E := by
  rintro ⟨s, outcomes⟩ ⟨hs, hl⟩
  have hwait : ∃ s' rest, (tryCatch wait fun _ => pure () : Program Run Failure Unit).exec (s, outcomes) =
      (.ok (), (s', rest)) ∧ E s' := by
    rw [exec_tryCatch]
    match outcomes with
    | [] => exact ⟨s.flush, [], rfl, hflush s hs⟩
    | true :: rest => exact ⟨s.flush, rest, rfl, hflush s hs⟩
    | false :: rest => exact ⟨s, rest, rfl, hs⟩
  obtain ⟨s', rest, hexec, hs'⟩ := hwait
  have hthrow : (cleanUp e : Program Run Failure α).exec (s, outcomes) = (.error e, (s', rest)) := by
    unfold cleanUp
    rw [exec_bind, hexec]
    rfl
  rw [hthrow]
  exact ⟨hs', hl⟩

end Calls

/-! ## `stage_out` -/

section StageOut

open Program

variable {v : Snapshot Contents} {hostBytes : ℕ → ℕ}

/-- The copies of `done` were asked for. -/
structure Staging (v : Snapshot Contents) (g : Snapshot DeviceTensor) (i : ℕ) (done : List (ℕ × DeviceTensor))
    (s : Storage) : Prop where
  stored : Stored v s
  gpu : s.gpu = some g
  asked : ∀ p ∈ done, Copy.toHost p.2.address p.2.bytes i p.1 ∈ s.queue

/-- One tensor more. -/
theorem Staging.ask {g : Snapshot DeviceTensor} {i : ℕ} {done : List (ℕ × DeviceTensor)} {s : Storage}
    (h : Staging v g i done s) {p : ℕ × DeviceTensor} (hp : p ∈ places g) :
    Staging v g i (done ++ [p]) { s with
      queue := s.queue ++ [Copy.toHost p.2.address p.2.bytes i p.1]
      asked := s.asked ++ [Copy.toHost p.2.address p.2.bytes i p.1] } where
  stored := by
    refine h.stored.ask ⟨?_, fun k hk => h.stored.place h.gpu hp hk⟩ ?_
    · rw [Storage.gpuAddresses, h.gpu]
      refine List.mem_map_of_mem ?_
      have hsnd := List.mem_map_of_mem (f := Prod.snd) hp
      rwa [places, map_packed_snd] at hsnd
    · rw [← snapshotBytes_eq (h.stored.shape h.gpu)]
      have hle := (le_of_mem_packed hp).2
      rwa [Nat.zero_add] at hle
  gpu := h.gpu
  asked q hq := by
    rcases List.mem_append.mp hq with hq | hq
    · exact List.mem_append_left _ (h.asked q hq)
    · rw [List.mem_singleton.mp hq]
      exact List.mem_append_right _ (List.mem_singleton_self _)

/-- When all were asked for, the host buffer backs the snapshot. -/
theorem Staging.finish {g : Snapshot DeviceTensor} {i : ℕ} {s : Storage} (h : Staging v g i (places g) s) :
    Stored v { s with host := some i, layout := some (g.map DeviceTensor.toDescriptor), copying := true } := by
  refine ⟨h.stored.shown, fun _ _ => congrArg some (h.stored.shape h.gpu), fun j hj p b hb => ?_, fun hnone => ?_,
    fun c hc => ?_, h.stored.asked⟩
  · obtain rfl := Option.some.inj hj
    have hp : p < 0 + total (fun t => t.bytes) (present g) := by
      have hlt := (List.getElem?_eq_some_iff.mp hb).1
      rw [← snapshotBytes_eq (h.stored.shape h.gpu)] at hlt
      rwa [Nat.zero_add]
    obtain ⟨o, t, hmem, hle, hlt⟩ := exists_packed (Nat.zero_le p) hp
    exact .inr ⟨_, h.asked (o, t) hmem, rfl, hle, hlt⟩
  · rw [show s.gpu = some g from h.gpu] at hnone
    cases hnone
  · have hright := h.stored.right c hc
    cases c with
    | toHost => exact hright
    | fromHost => exact hright

theorem stageOut_spec (host : Option ℕ) : Triple (fun r => Stored v r.1) (stageOut hostBytes host)
    (fun _ r => Stored v r.1) fun _ r => Stored v r.1 := by
  refine .bind_get fun r hr => ?_
  have hsame : ∀ t : Run, t = r → Stored v t.1 := fun t ht => ht ▸ hr
  dsimp only
  cases hg : r.1.gpu with
  | none => exact .throw hsame
  | some g =>
      refine .ite (fun _ => .modify fun t ht => ?_) fun _ => ?_
      · have hs := hsame t ht
        exact ⟨hs.shown, hs.layout, hs.backed, hs.cold, hs.right, hs.asked⟩
      · cases host with
        | none => exact .throw hsame
        | some i =>
            refine .ite (fun _ => .throw hsame) fun _ => ?_
            have hbegin : ∀ t : Run, t = r → Within r.2 (Staging v g i []) t := by
              rintro t rfl
              exact ⟨⟨hr, hg, fun p hp => absurd hp List.not_mem_nil⟩, List.suffix_refl _⟩
            have hbody : Triple (Within r.2 (Staging v g i [])) (do
                order
                (places g).forM fun p => ask (.toHost p.2.address p.2.bytes i p.1)
                order) (fun _ => Within r.2 (Staging v g i (places g))) fun _ => Failed r.2 (Stored v) := by
              refine .bind (order_spec fun s hs => hs.stored) fun _ => ?_
              refine .bind ?_ fun _ => order_spec fun s hs => hs.stored
              have hloop := Triple.forM_done (I := fun done => Within r.2 (Staging v g i done))
                (E := fun (_ : Failure) => Failed r.2 (Stored v))
                (f := fun p : ℕ × DeviceTensor => ask (.toHost p.2.address p.2.bytes i p.1)) (places g)
                (fun done p hp => call_spec (fun s hs => hs.ask hp) fun s hs => hs.stored) []
              rwa [List.nil_append] at hloop
            refine .bind (.pre (.tryCatch hbody fun e => ?_) hbegin) fun _ => .modify fun t ht => ht.1.finish
            exact (cleanUp_spec (fun s hs => hs.flush) e).conseq (fun _ h => h) (fun _ _ h => h) fun _ t ht => ht.1

end StageOut

/-! ## `finish_offload` -/

section FinishOffload

open Program

variable {v : Snapshot Contents} {s : Storage}

/-- When everything is done, the host buffer has every byte. -/
theorem Stored.hosts_flush (h : Stored v s) {i : ℕ} (hi : s.host = some i) {p : ℕ} {b : UInt8}
    (hb : (stored v)[p]? = some b) : s.flush.memory.hosts i p = b := by
  rcases h.flush.backed i hi p b hb with hmem | ⟨c, hc, -⟩
  · exact hmem
  · exact absurd hc List.not_mem_nil

/-- The snapshot is given away. -/
theorem Stored.demote (h : Stored v s) (hhost : s.host ≠ none) :
    Stored v { s.flush with copying := false, gpu := none } where
  shown g hg := by cases hg
  layout := h.layout
  backed i hi p b hb := .inl (h.hosts_flush hi hb)
  cold _ := Option.isSome_iff_ne_none.mpr hhost
  right c hc := absurd hc List.not_mem_nil
  asked := h.asked

theorem finishOffload_spec (borrowed : Bool) : Triple (fun r => Stored v r.1) (finishOffload borrowed)
    (fun _ r => Stored v r.1) fun _ r => Stored v r.1 := by
  refine .bind_get fun r hr => ?_
  have hsame : ∀ t : Run, t = r → Stored v t.1 := fun t ht => ht ▸ hr
  dsimp only
  cases hg : r.1.gpu with
  | none => exact .pure hsame
  | some g =>
      refine .ite (fun _ => .pure hsame) fun hnot => ?_
      rw [not_or] at hnot
      have hwait : Triple (fun t => t = r) wait (fun _ t => t.1 = r.1.flush) fun _ t => Stored v t.1 := by
        refine (wait_spec (l := r.2) (P := fun s => s = r.1) (E := Stored v) (Q := fun s => s = r.1.flush)
          (fun s hs => hs ▸ rfl) fun s hs => hs ▸ hr).conseq ?_ (fun _ _ h => h.1) fun _ _ h => h.1
        rintro t rfl
        exact ⟨rfl, List.suffix_refl _⟩
      refine .bind hwait fun _ => .bind (.modify fun t ht => ?_) fun _ => .pure fun t ht => ht
      rw [ht]
      exact hr.demote hnot.1

end FinishOffload

/-! ## `restore` -/

/-- The tensor that a copy overwrites. -/
def Copy.writes : Copy → Option ℕ
  | .toHost .. => none
  | .fromHost a .. => some a

/-- `scratch_like` gives such tensors, and `prepare` accepts them. -/
def Supported (d : Descriptor) : Prop := d.dtype = .f32 ∧ d.elemSize = 4 ∨ d.dtype = .bf16 ∧ d.elemSize = 2

section Restore

open Program

variable {v : Snapshot Contents} {l : List Bool}

/-- A call of `restore` on a storage `before`, whose recycled snapshot owns the tensors
`owned`: copies so far overwrite these or new tensors. -/
structure Restoring (v : Snapshot Contents) (before : Storage) (owned : List ℕ) (s : Storage) : Prop where
  stored : Stored v s
  asked : ∃ new, s.asked = before.asked ++ new ∧ ∀ c ∈ new, ∀ a ∈ c.writes, a ∈ owned ∨ before.allocated ≤ a

/-- The target is being prepared: `prepared` are its tensors' addresses, and `rest` those
of the tensors that may still be recycled. -/
structure Preparing (v : Snapshot Contents) (before : Storage) (owned prepared rest : List ℕ) (s : Storage) : Prop where
  stored : Stored v s
  gpu : s.gpu = none
  host : s.host = before.host
  queue : s.queue = before.queue
  asked : s.asked = before.asked
  grown : before.allocated ≤ s.allocated
  nodup : (prepared ++ rest).Nodup
  below : ∀ a ∈ prepared ++ rest, a < s.allocated
  origin : ∀ a ∈ prepared ++ rest, a ∈ owned ∨ before.allocated ≤ a

variable {before : Storage} {owned prepared rest : List ℕ} {s : Storage}

theorem Preparing.restoring (h : Preparing v before owned prepared rest s) : Restoring v before owned s :=
  ⟨h.stored, [], by rw [h.asked, List.append_nil], fun c hc => absurd hc List.not_mem_nil⟩

/-- Some tensors need not be recycled. -/
theorem Preparing.drop {skipped : List ℕ} (h : Preparing v before owned prepared (skipped ++ rest) s) :
    Preparing v before owned prepared rest s := by
  have hsub : (prepared ++ rest).Sublist (prepared ++ (skipped ++ rest)) :=
    (List.sublist_append_right skipped rest).append_left prepared
  exact ⟨h.stored, h.gpu, h.host, h.queue, h.asked, h.grown, h.nodup.sublist hsub,
    fun a ha => h.below a (hsub.subset ha), fun a ha => h.origin a (hsub.subset ha)⟩

/-- A new tensor. -/
theorem Preparing.allocate (h : Preparing v before owned prepared rest s) :
    Preparing v before owned (prepared ++ [s.allocated]) rest { s with allocated := s.allocated + 1 } := by
  have hperm : (prepared ++ [s.allocated] ++ rest).Perm (s.allocated :: (prepared ++ rest)) := by
    rw [List.append_assoc, List.singleton_append]
    exact List.perm_middle
  have hfresh : s.allocated ∉ prepared ++ rest := fun hin => absurd (h.below _ hin) (Nat.lt_irrefl _)
  refine ⟨⟨h.stored.shown, h.stored.layout, h.stored.backed, h.stored.cold, fun c hc => ?_, h.stored.asked⟩, h.gpu,
    h.host, h.queue, h.asked, h.grown.trans (Nat.le_succ _), hperm.nodup_iff.mpr (List.nodup_cons.mpr ⟨hfresh, h.nodup⟩),
    fun a ha => ?_, fun a ha => ?_⟩
  · have hright := h.stored.right c hc
    cases c with
    | toHost => exact hright
    | fromHost => exact hright
  · rcases List.mem_cons.mp (hperm.subset ha) with rfl | ha
    · exact Nat.lt_succ_self _
    · exact (h.below a ha).trans (Nat.lt_succ_self _)
  · rcases List.mem_cons.mp (hperm.subset ha) with rfl | ha
    · exact .inr h.grown
    · exact h.origin a ha

/-- `scratch_like` of a tensor that it supports. -/
theorem scratchLike_spec {d : Descriptor} (hd : Supported d) :
    Triple (Within l (Preparing v before owned prepared rest)) (scratchLike d)
      (fun t => Within l fun s => t.toDescriptor = d ∧ Preparing v before owned (prepared ++ [t.address]) rest s)
      fun _ => Failed l (Restoring v before owned) := by
  refine call_spec (fun s hs => ?_) fun s hs => hs.restoring
  obtain ⟨count, elemSize, dtype⟩ := d
  rcases hd with ⟨hdtype, hsize⟩ | ⟨hdtype, hsize⟩
  · dsimp only at hdtype hsize
    subst hdtype hsize
    exact ⟨rfl, hs.allocate⟩
  · dsimp only at hdtype hsize
    subst hdtype hsize
    exact ⟨rfl, hs.allocate⟩

theorem refuse_spec {P : Run → Prop} {E : Failure → Run → Prop} {bad : Prop} [Decidable bad] {what : String}
    (h : ∀ r, P r → ¬ bad) : Triple P (refuse bad what) (fun _ => P) E :=
  .ite (fun hbad => fun r hr => absurd hbad (h r hr)) fun _ => .pure fun _ hr => hr

theorem reuse_spec (dst : Option DeviceTensor) {d : Descriptor} (hd : Supported d) :
    Triple (Within l (Preparing v before owned prepared (addresses [dst] ++ rest))) (reuse dst d)
      (fun t => Within l fun s => t.toDescriptor = d ∧ Preparing v before owned (prepared ++ [t.address]) rest s)
      fun _ => Failed l (Restoring v before owned) := by
  have hscratch : Triple (Within l (Preparing v before owned prepared (addresses [dst] ++ rest))) (scratchLike d)
      (fun t => Within l fun s => t.toDescriptor = d ∧ Preparing v before owned (prepared ++ [t.address]) rest s)
      fun _ => Failed l (Restoring v before owned) :=
    (scratchLike_spec hd).pre fun r hr => ⟨hr.1.drop, hr.2⟩
  cases dst with
  | none => exact hscratch
  | some t =>
      refine .ite (fun hshape => .pure fun r hr => ⟨⟨hshape, ?_⟩, hr.2⟩) fun _ => hscratch
      obtain ⟨hstored, hgpu, hhost, hqueue, hasked, hgrown, hnodup, hbelow, horigin⟩ := hr.1
      have hassoc : prepared ++ (addresses [some t] ++ rest) = prepared ++ [t.address] ++ rest :=
        (List.append_assoc _ _ _).symm
      rw [hassoc] at hnodup hbelow horigin
      exact ⟨hstored, hgpu, hhost, hqueue, hasked, hgrown, hnodup, hbelow, horigin⟩

/-- One tensor of the target. -/
theorem prepare_spec (dst : Option DeviceTensor) {src : Option Descriptor} (hsrc : ∀ d ∈ src, Supported d) :
    Triple (Within l (Preparing v before owned prepared (addresses [dst] ++ rest))) (prepare dst src)
      (fun t => Within l fun s => t.map DeviceTensor.toDescriptor = src ∧
        Preparing v before owned (prepared ++ addresses [t]) rest s)
      fun _ => Failed l (Restoring v before owned) := by
  cases src with
  | none =>
      refine .pure fun r hr => ⟨⟨rfl, ?_⟩, hr.2⟩
      have hdrop := hr.1.drop
      rwa [← List.append_nil prepared] at hdrop
  | some d =>
      have hd := hsrc d rfl
      refine .bind (refuse_spec fun _ _ hbad => ?_) fun _ => .bind (reuse_spec dst hd) fun t =>
        .bind (refuse_spec fun r hr hbad => ?_) fun _ => .pure fun r hr => ⟨⟨congrArg some hr.1.1, hr.1.2⟩, hr.2⟩
      · rcases hd with hd | hd
        · exact hbad.1 hd.1
        · exact hbad.2 hd.1
      · obtain ⟨⟨hshape, -⟩, -⟩ := hr
        subst hshape
        exact hbad.elim (fun h => h rfl) fun h => h rfl

theorem addresses_append (l m : List (Option DeviceTensor)) : addresses (l ++ m) = addresses l ++ addresses m := by
  unfold addresses
  rw [List.reduceOption_append, List.map_append]

theorem addresses_cons (t : Option DeviceTensor) (l : List (Option DeviceTensor)) :
    addresses (t :: l) = addresses [t] ++ addresses l := addresses_append [t] l

theorem addresses_owned (r : Snapshot DeviceTensor) : addresses r.owned = addresses [r.h] ++
    (addresses [r.mtpPrefixH] ++ (addresses r.recurrentStates ++ addresses r.convStates)) := by
  unfold Snapshot.owned
  rw [addresses_cons r.h, addresses_cons r.mtpPrefixH, addresses_append r.recurrentStates]

/-- A list of tensors. -/
theorem prepareAll_spec (dst : List (Option DeviceTensor)) {srcs : List (Option Descriptor)}
    (hsrcs : ∀ src ∈ srcs, ∀ d ∈ src, Supported d) :
    Triple (Within l (Preparing v before owned prepared (addresses dst ++ rest))) (prepareAll dst srcs)
      (fun ts => Within l fun s => ts.map (Option.map DeviceTensor.toDescriptor) = srcs ∧
        Preparing v before owned (prepared ++ addresses ts) rest s)
      fun _ => Failed l (Restoring v before owned) := by
  induction srcs generalizing dst prepared with
  | nil =>
      refine .pure fun r hr => ⟨⟨rfl, ?_⟩, hr.2⟩
      have hdrop := hr.1.drop
      rwa [← List.append_nil prepared] at hdrop
  | cons src srcs ih =>
      have hsplit : addresses dst ++ rest = addresses [dst.head?.join] ++ (addresses dst.tail ++ rest) := by
        cases dst with
        | nil => rfl
        | cons t ts => rw [addresses_cons, List.append_assoc]; rfl
      rw [hsplit]
      refine .bind (prepare_spec _ (hsrcs src List.mem_cons_self)) fun t => within_and fun ht => ?_
      refine .bind (ih dst.tail fun s hs => hsrcs s (List.mem_cons_of_mem _ hs)) fun ts => .pure fun r hr =>
        ⟨⟨?_, ?_⟩, hr.2⟩
      · rw [List.map_cons, hr.1.1, ht]
      · rw [addresses_cons, ← List.append_assoc]
        exact hr.1.2

theorem allocateDraft_spec {src : Option (Draft Descriptor)}
    (hsrc : ∀ d ∈ src, ∀ o ∈ d.rawKeys ++ d.values, ∀ e ∈ o, Supported e) :
    Triple (Within l (Preparing v before owned prepared rest)) (allocateDraft src)
      (fun t => Within l fun s => t.map (Draft.map DeviceTensor.toDescriptor) = src ∧
        Preparing v before owned (prepared ++ addresses (t.elim [] fun d => d.rawKeys ++ d.values)) rest s)
      fun _ => Failed l (Restoring v before owned) := by
  cases src with
  | none => exact .pure fun r hr => ⟨⟨rfl, by simpa [addresses] using hr.1⟩, hr.2⟩
  | some d =>
      have hd := hsrc d rfl
      -- No tensor is given to be recycled.
      have hkeys : Triple (Within l (Preparing v before owned prepared (addresses [] ++ rest))) (prepareAll [] d.rawKeys)
          (fun ts => Within l fun s => ts.map (Option.map DeviceTensor.toDescriptor) = d.rawKeys ∧
            Preparing v before owned (prepared ++ addresses ts) rest s)
          fun _ => Failed l (Restoring v before owned) :=
        prepareAll_spec [] fun o ho => hd o (List.mem_append_left _ ho)
      refine .bind hkeys fun keys => within_and fun hshape => ?_
      refine .bind (prepareAll_spec [] fun o ho => hd o (List.mem_append_right _ ho)) fun values => .pure fun r hr =>
        ⟨⟨?_, ?_⟩, hr.2⟩
      · rw [Option.map_some, Draft.map, hshape, hr.1.1]
      · rw [Option.elim_some, addresses_append, ← List.append_assoc]
        exact hr.1.2

/-- The target has the shape that is stored, in tensors of its own. -/
theorem prepareSnapshot_spec (recycled : Snapshot DeviceTensor) {layout : Snapshot Descriptor}
    (hlayout : ∀ d ∈ present layout, Supported d) :
    Triple (Within l (Preparing v before owned [] (addresses recycled.owned))) (prepareSnapshot recycled layout)
      (fun next => Within l fun s => next.map DeviceTensor.toDescriptor = layout ∧
        Preparing v before owned (addresses next.tensors) [] s)
      fun _ => Failed l (Restoring v before owned) := by
  have hsupported : ∀ o ∈ layout.tensors, ∀ d ∈ o, Supported d := fun o ho d hd =>
    hlayout d (List.reduceOption_mem_iff.mpr (Option.mem_def.mp hd ▸ ho))
  unfold Snapshot.tensors Snapshot.owned at hsupported
  have hrest : addresses recycled.owned = addresses [recycled.h] ++ (addresses [recycled.mtpPrefixH] ++
      (addresses recycled.recurrentStates ++ (addresses recycled.convStates ++ []))) := by
    rw [addresses_owned, List.append_nil]
  rw [hrest]
  refine .bind (prepare_spec _ (hsupported _ (by simp))) fun h => within_and fun hh => ?_
  refine .bind (prepare_spec _ (hsupported _ (by simp))) fun mtp => within_and fun hmtp => ?_
  refine .bind (prepareAll_spec _ fun o ho => hsupported o (by simp [ho])) fun recurrent => within_and fun hrecurrent => ?_
  refine .bind (prepareAll_spec _ fun o ho => hsupported o (by simp [ho])) fun conv => within_and fun hconv => ?_
  refine .bind (allocateDraft_spec fun d hd o ho => hsupported o ?_) fun dflash => within_and fun hdflash => ?_
  · refine List.mem_append_right _ ?_
    rw [Snapshot.draft, Option.mem_def.mp hd]
    exact ho
  refine .pure fun r hr => ⟨⟨?_, ?_⟩, hr.2⟩
  · unfold Snapshot.map
    rw [hh, hmtp, hrecurrent, hconv, hdflash]
    rfl
  · have haddresses : addresses (⟨copyMetadata layout.metadata, h, mtp, dflash, recurrent, conv⟩ : Snapshot DeviceTensor).tensors =
        [] ++ addresses [h] ++ addresses [mtp] ++ addresses recurrent ++ addresses conv ++
          addresses (dflash.elim [] fun d => d.rawKeys ++ d.values) := by
      unfold Snapshot.tensors Snapshot.draft
      rw [addresses_append, addresses_owned]
      simp only [List.nil_append, List.append_assoc]
    rw [haddresses]
    exact hr.1

/-- Copies from a host buffer into tensors of which no two are one. -/
theorem perform_fromHost {i : ℕ} {l : List (ℕ × DeviceTensor)} (hnodup : (l.map fun p => p.2.address).Nodup) (m : Memory) :
    ((l.map fun p => Copy.fromHost p.2.address p.2.bytes i p.1).foldl Memory.perform m).hosts = m.hosts ∧
      (∀ a ∉ l.map fun p => p.2.address,
        ((l.map fun p => Copy.fromHost p.2.address p.2.bytes i p.1).foldl Memory.perform m).device a = m.device a) ∧
      ∀ p ∈ l, ∀ k < p.2.bytes, ((l.map fun p => Copy.fromHost p.2.address p.2.bytes i p.1).foldl Memory.perform m).device
        p.2.address k = m.hosts i (p.1 + k) := by
  induction l generalizing m with
  | nil => exact ⟨rfl, fun _ _ => rfl, fun p hp => absurd hp List.not_mem_nil⟩
  | cons q l ih =>
      obtain ⟨hq, hl⟩ := List.nodup_cons.mp hnodup
      obtain ⟨hhosts, hother, hcopied⟩ := ih hl (m.perform (.fromHost q.2.address q.2.bytes i q.1))
      rw [List.map_cons, List.foldl_cons]
      refine ⟨hhosts, fun a ha => ?_, fun p hp k hk => ?_⟩
      · rw [List.map_cons, List.mem_cons, not_or] at ha
        rw [hother a ha.2]
        exact Function.update_of_ne ha.1 _ _
      · rcases List.mem_cons.mp hp with rfl | hp
        · rw [hother _ hq]
          show Function.update m.device p.2.address _ p.2.address k = _
          rw [Function.update_self, write, if_pos ⟨Nat.zero_le k, by omega⟩, Nat.sub_zero]
        · exact hcopied p hp k hk

/-- The copies of `done` back into the target were asked for. -/
structure Copying (v : Snapshot Contents) (before : Storage) (next : Snapshot DeviceTensor) (i : ℕ)
    (done : List (ℕ × DeviceTensor)) (s : Storage) : Prop where
  stored : Stored v s
  gpu : s.gpu = none
  host : s.host = some i
  queue : s.queue = before.queue ++ done.map fun p => .fromHost p.2.address p.2.bytes i p.1
  asked : s.asked = before.asked ++ done.map fun p => .fromHost p.2.address p.2.bytes i p.1
  sub : ∀ p ∈ done, p ∈ places next

section Copying

variable {next : Snapshot DeviceTensor} {i : ℕ} {done : List (ℕ × DeviceTensor)}

theorem mem_addresses_of_mem_places {p : ℕ × DeviceTensor} (hp : p ∈ places next) : p.2.address ∈ addresses next.tensors := by
  have hsnd := List.mem_map_of_mem (f := Prod.snd) hp
  rw [places, map_packed_snd] at hsnd
  exact List.mem_map_of_mem hsnd

theorem Copying.restoring (h : Copying v before next i done s)
    (horigin : ∀ a ∈ addresses next.tensors, a ∈ owned ∨ before.allocated ≤ a) : Restoring v before owned s := by
  refine ⟨h.stored, _, h.asked, fun c hc a ha => ?_⟩
  obtain ⟨p, hp, rfl⟩ := List.mem_map.mp hc
  obtain rfl := Option.mem_some.mp ha
  exact horigin _ (mem_addresses_of_mem_places (h.sub p hp))

/-- One tensor more. -/
theorem Copying.ask (hshape : next.map DeviceTensor.toDescriptor = v.map Contents.toDescriptor)
    (h : Copying v before next i done s) {p : ℕ × DeviceTensor} (hp : p ∈ places next) :
    Copying v before next i (done ++ [p]) { s with
      queue := s.queue ++ [.fromHost p.2.address p.2.bytes i p.1]
      asked := s.asked ++ [.fromHost p.2.address p.2.bytes i p.1] } := by
  refine ⟨h.stored.ask h.gpu ?_, h.gpu, h.host, ?_, ?_, fun q hq => ?_⟩
  · rw [← snapshotBytes_eq hshape]
    have hle := (le_of_mem_packed hp).2
    rwa [Nat.zero_add] at hle
  · rw [List.map_append, ← List.append_assoc, ← h.queue]
    rfl
  · rw [List.map_append, ← List.append_assoc, ← h.asked]
    rfl
  · rcases List.mem_append.mp hq with hq | hq
    · exact h.sub q hq
    · rw [List.mem_singleton.mp hq]
      exact hp

/-- When all copies are done, the target shows what is stored. -/
theorem Copying.view_eq (hshape : next.map DeviceTensor.toDescriptor = v.map Contents.toDescriptor)
    (hnodup : (addresses next.tensors).Nodup) (h : Copying v before next i (places next) s) :
    view s.flush.memory.device next = v := by
  have hview : (view s.flush.memory.device next).map Contents.toDescriptor = v.map Contents.toDescriptor := by
    rw [view, Snapshot.map_map, ← hshape]
    rfl
  have hlength : (Prefix.stored (view s.flush.memory.device next)).length = (Prefix.stored v).length := by
    rw [← snapshotBytes_eq hshape, ← snapshotBytes_eq (v := view s.flush.memory.device next) (hshape.trans hview.symm)]
  have hplaces : ((places next).map fun p => p.2.address).Nodup := by
    have hsnd : (places next).map (fun p => p.2.address) = ((places next).map Prod.snd).map DeviceTensor.address :=
      (List.map_map).symm
    rw [hsnd, places, map_packed_snd]
    exact hnodup
  refine eq_of_stored_eq hview (List.ext_getElem? fun p => ?_)
  rcases Nat.lt_or_ge p (Prefix.stored v).length with hp | hp
  · -- The byte belongs to a tensor, and was copied to it from the host buffer.
    have hin : p < 0 + total (fun t => t.bytes) (present next) := by
      rw [Nat.zero_add]
      exact hp.trans_eq (snapshotBytes_eq hshape).symm
    obtain ⟨o, t, hplace, hle, hlt⟩ := exists_packed (Nat.zero_le p) hin
    have hbyte := getElem?_stored_view s.flush.memory.device hplace (show p - o < t.bytes by omega)
    have hflush : s.flush.memory = ((places next).map fun p => Copy.fromHost p.2.address p.2.bytes i p.1).foldl
        Memory.perform (before.queue.foldl Memory.perform s.memory) := by
      rw [← List.foldl_append, ← h.queue]
      rfl
    obtain ⟨hhosts, -, hcopied⟩ := perform_fromHost hplaces (before.queue.foldl Memory.perform s.memory) (i := i)
    have hdevice := hcopied (o, t) hplace (p - o) (show p - o < t.bytes by omega)
    rw [← hflush, ← hhosts, ← hflush] at hdevice
    rw [Nat.add_sub_cancel' hle] at hbyte hdevice
    rw [hbyte, hdevice, List.getElem?_eq_getElem hp]
    exact congrArg some (h.stored.hosts_flush h.host (List.getElem?_eq_getElem hp))
  · rw [List.getElem?_eq_none (hlength ▸ hp), List.getElem?_eq_none hp]

/-- The target is shown. -/
theorem Copying.promote (hshape : next.map DeviceTensor.toDescriptor = v.map Contents.toDescriptor)
    (hnodup : (addresses next.tensors).Nodup) (h : Copying v before next i (places next) s) :
    Stored v { s.flush with gpu := some next } where
  shown g hg := by
    obtain rfl := Option.some.inj hg
    exact h.view_eq hshape hnodup
  layout := h.stored.layout
  backed j hj p b hb := .inl (h.stored.hosts_flush hj hb)
  cold hnone := nomatch hnone
  right c hc := absurd hc List.not_mem_nil
  asked := h.stored.asked

end Copying

theorem Restoring.flush (h : Restoring v before owned s) : Restoring v before owned s.flush := ⟨h.stored.flush, h.asked⟩

/-- **What `restore` does.**  It shows what is stored, or a call of the backend failed; it
overwrites only new tensors and those that the recycled snapshot owns alone. -/
theorem restore_spec (hsupported : ∀ c ∈ present v, Supported c.toDescriptor) (hbefore : Stored v before)
    (recycled : Option (Snapshot DeviceTensor)) (hrecycled : ∀ r ∈ recycled, Recyclable before r) (l : List Bool) :
    Triple (fun r => r = (before, l)) (restore recycled)
      (fun next r => r.1.gpu = some next ∧ Restoring v before (addresses (recycled.getD {}).owned) r.1)
      fun _ => Failed l (Restoring v before (addresses (recycled.getD {}).owned)) := by
  refine .bind_get fun r hr => ?_
  subst hr
  dsimp only
  cases hg : before.gpu with
  | some g =>
      refine .pure fun r hr => ?_
      subst hr
      exact ⟨hg, hbefore, [], (List.append_nil _).symm, fun c hc => absurd hc List.not_mem_nil⟩
  | none =>
      obtain ⟨i, hi⟩ := Option.isSome_iff_exists.mp (hbefore.cold hg)
      rw [hi, hbefore.layout i hi]
      dsimp only
      have hlayout : ∀ d ∈ present (v.map Contents.toDescriptor), Supported d := by
        intro d hd
        rw [present_map] at hd
        obtain ⟨c, hc, rfl⟩ := List.mem_map.mp hd
        exact hsupported c hc
      have hrecyclable : Recyclable before (recycled.getD {}) := by
        cases recycled with
        | none => exact ⟨List.nodup_nil, fun a ha => absurd ha List.not_mem_nil⟩
        | some r => exact hrecycled r rfl
      have hbegin : ∀ r : Run, r = (before, l) →
          Within l (Preparing v before (addresses (recycled.getD {}).owned) [] (addresses (recycled.getD {}).owned)) r := by
        rintro r rfl
        exact ⟨⟨hbefore, hg, rfl, rfl, rfl, le_rfl, hrecyclable.1, hrecyclable.2, fun a ha => .inl ha⟩,
          List.suffix_refl _⟩
      refine .bind (.pre (prepareSnapshot_spec _ hlayout) hbegin) fun next => within_and fun hshape => ?_
      -- From here on the target does not change.
      refine .pre (P := Within l fun s => ((addresses next.tensors).Nodup ∧
        ∀ a ∈ addresses next.tensors, a ∈ addresses (recycled.getD {}).owned ∨ before.allocated ≤ a) ∧
        Copying v before next i [] s) (within_and fun ⟨hnodup, horigin⟩ => ?_) ?_
      · have hbody : Triple (Within l (Copying v before next i [])) (do
            order
            (places next).forM fun p => ask (.fromHost p.2.address p.2.bytes i p.1)
            wait) (fun _ => Within l fun s => Stored v { s with gpu := some next } ∧
              Restoring v before (addresses (recycled.getD {}).owned) { s with gpu := some next })
            fun _ => Failed l (Restoring v before (addresses (recycled.getD {}).owned)) := by
          refine .bind (order_spec fun s hs => hs.restoring horigin) fun _ => ?_
          have hloop := Triple.forM_done (I := fun done => Within l (Copying v before next i done))
            (E := fun (_ : Failure) => Failed l (Restoring v before (addresses (recycled.getD {}).owned)))
            (f := fun p : ℕ × DeviceTensor => ask (.fromHost p.2.address p.2.bytes i p.1)) (places next)
            (fun done p hp => call_spec (fun s hs => hs.ask hshape hp) fun s hs => hs.restoring horigin) []
          rw [List.nil_append] at hloop
          refine .bind hloop fun _ => wait_spec (fun s hs => ?_) fun s hs => hs.restoring horigin
          have hpromote := hs.promote hshape hnodup
          exact ⟨hpromote, hpromote, (hs.restoring horigin).asked⟩
        refine .bind (.tryCatch hbody fun e => cleanUp_spec (fun s hs => hs.flush) e) fun _ =>
          .bind (.modify fun r hr => ?_) fun _ => .pure fun r hr => hr
        exact ⟨rfl, hr.1.2⟩
      · rintro r ⟨hr, hl⟩
        have hnodup := hr.nodup
        have horigin := hr.origin
        rw [List.append_nil] at hnodup horigin
        exact ⟨⟨⟨hnodup, horigin⟩, ⟨hr.stored, hr.gpu, hr.host.trans hi, by rw [hr.queue]; simp, by rw [hr.asked]; simp,
          fun p hp => absurd hp List.not_mem_nil⟩⟩, hl⟩

end Restore

/-! ## Any run -/

section Runs

open Program

variable {v : Snapshot Contents} {hostBytes : ℕ → ℕ} {s : Storage}

/-- What a program leaves behind, however it ends. -/
theorem state_of_triple {α : Type} {x : Program Run Failure α} {r : Run} {I : Storage → Prop}
    (h : Triple (fun t => t = r) x (fun _ t => I t.1) fun _ t => I t.1) : I (x.exec r).2.1 := by
  have hr := h r rfl
  revert hr
  rcases x.exec r with ⟨_ | _, t⟩
  · exact id
  · exact id

theorem stored_invariant (hsupported : ∀ c ∈ present v, Supported c.toDescriptor) :
    (storageMachine hostBytes v).Invariant (Stored v) where
  init := by
    rintro s ⟨⟨g, hg, hview⟩, -, hhost, -, hqueue, hasked⟩
    refine ⟨fun g' hg' => ?_, fun i hi => ?_, fun i hi => ?_, fun hnone => ?_, fun c hc => ?_, fun c hc => ?_⟩
    · obtain rfl := Option.some.inj (hg.symm.trans hg')
      exact hview
    · rw [hhost] at hi
      cases hi
    · rw [hhost] at hi
      cases hi
    · rw [hg] at hnone
      cases hnone
    · rw [hqueue] at hc
      cases hc
    · rw [hasked] at hc
      cases hc
  step := by
    intro s a t hs hstep
    cases a with
    | stageOut host outcomes =>
        obtain rfl := Option.some.inj hstep
        exact state_of_triple ((stageOut_spec host).pre fun r hr => hr ▸ hs)
    | finishOffload borrowed outcomes =>
        obtain rfl := Option.some.inj hstep
        exact state_of_triple ((finishOffload_spec borrowed).pre fun r hr => hr ▸ hs)
    | restore recycled outcomes =>
        change (if ∀ r ∈ recycled, Recyclable s r then _ else none) = some t at hstep
        split_ifs at hstep with hrecycled
        obtain rfl := Option.some.inj hstep
        exact state_of_triple ((restore_spec hsupported hs recycled hrecycled outcomes).conseq (fun _ h => h)
          (fun _ _ h => h.2.stored) fun _ _ h => h.1.stored)
    | transfer =>
        change (match s.queue with | [] => none | c :: rest => _) = some t at hstep
        cases hqueue : s.queue with
        | nil =>
            rw [hqueue] at hstep
            cases hstep
        | cons c rest =>
            rw [hqueue] at hstep
            obtain rfl := Option.some.inj hstep
            exact hs.perform hqueue
    | elsewhere memory allocations =>
        obtain rfl := Option.some.inj hstep
        exact hs.elsewhere memory allocations

/-- **Cold snapshots come back.**  In every state of every run of a storage whose tensors
`scratch_like` can make: what is shown is what was stored; what was given away can be
restored, into tensors recycled from any snapshot; no copy goes beyond the bytes of the
snapshot in the host buffer; and `restore` asks for no copy into a tensor of a draft state
of a snapshot that is held elsewhere. -/
theorem coldRoundTrip (hsupported : ∀ c ∈ present v, Supported c.toDescriptor)
    (h : (storageMachine hostBytes v).Reachable s) :
    (∀ g ∈ s.gpu, view s.memory.device g = v) ∧
      (s.gpu = none → ∀ recycled, (∀ r ∈ recycled, Recyclable s r) → ∃ g t, (restore recycled).exec (s, []) = (.ok g, t) ∧
        t.1.gpu = some g ∧ view t.1.memory.device g = v) ∧
      (∀ c ∈ s.asked, c.hostEnd ≤ (stored v).length) ∧
      ∀ recycled outcomes t, storageStep hostBytes s (.restore recycled outcomes) = some t →
        ∃ new, t.asked = s.asked ++ new ∧ ∀ other : Snapshot DeviceTensor,
          (∀ a ∈ addresses other.draft, a < s.allocated ∧ ∀ r ∈ recycled, a ∉ addresses r.owned) →
            ∀ c ∈ new, ∀ a ∈ c.writes, a ∉ addresses other.draft := by
  have hs := (stored_invariant hsupported).reachable h
  refine ⟨hs.shown, fun _ recycled hrecycled => ?_, hs.asked, fun recycled outcomes t hstep => ?_⟩
  · have hrestore := restore_spec hsupported hs recycled hrecycled [] (s, []) rfl
    revert hrestore
    rcases hexec : (restore recycled).exec (s, []) with ⟨e | g, t⟩
    · -- No call of the backend failed.
      exact fun hfailed => absurd hfailed.2 List.not_mem_nil
    · exact fun hrestored => ⟨g, t, rfl, hrestored.1, hrestored.2.stored.shown g hrestored.1⟩
  · change (if ∀ r ∈ recycled, Recyclable s r then _ else none) = some t at hstep
    split_ifs at hstep with hrecycled
    obtain rfl := Option.some.inj hstep
    have hrestoring := state_of_triple ((restore_spec hsupported hs recycled hrecycled outcomes).conseq (fun _ h => h)
      (fun _ _ h => h.2) fun _ _ h => h.1)
    obtain ⟨new, hasked, hwrites⟩ := hrestoring.asked
    refine ⟨new, hasked, fun other hother c hc a ha hdraft => ?_⟩
    obtain ⟨hlt, howned⟩ := hother a hdraft
    rcases hwrites c hc a ha with hin | hge
    · cases recycled with
      | none => exact absurd hin List.not_mem_nil
      | some r => exact howned r rfl hin
    · exact absurd hlt (Nat.not_lt.mpr hge)

/-- A vector of four bytes, a recurrent state that is absent, and a convolution of two numbers of
sixteen bits. -/
def sparseTensors : Snapshot DeviceTensor where
  h := some ⟨⟨1, 4, .f32⟩, 0⟩
  recurrentStates := [none]
  convStates := [some ⟨⟨2, 2, .bf16⟩, 1⟩]

/-- They are on the device, where a third tensor is. -/
def sparseStorage : Storage where
  gpu := some sparseTensors
  layout := none
  host := none
  copying := false
  memory := ⟨fun _ k => UInt8.ofNat k, fun _ _ => 0⟩
  queue := []
  asked := []
  allocated := 3

/-- A snapshot whose vector is recycled. -/
def recycledVector : Snapshot DeviceTensor := { h := some ⟨⟨1, 4, .f32⟩, 2⟩ }

/-- They were given away after a call that failed, and are restored, one into the vector. -/
theorem coldRoundTrip_sparse : ∃ s v, (storageMachine (fun _ => 8) v).Reachable s ∧ s.gpu = none ∧
    ∃ g t, (restore (some recycledVector)).exec (s, []) = (.ok g, t) ∧ view t.1.memory.device g = v ∧
      g.h = recycledVector.h := by
  have hreach : (storageMachine (fun _ => 8) (view sparseStorage.memory.device sparseTensors)).Reachable _ :=
    ⟨sparseStorage, [.stageOut (some 0) [true, false], .stageOut (some 0) [], .transfer, .transfer,
      .finishOffload false []], ⟨⟨_, rfl, rfl⟩, rfl, rfl, rfl, rfl, rfl⟩, rfl⟩
  have hsupported : ∀ c ∈ present (view sparseStorage.memory.device sparseTensors), Supported c.toDescriptor := by
    intro c hc
    rcases List.mem_cons.mp hc with rfl | hc
    · exact .inl ⟨rfl, rfl⟩
    · obtain rfl := List.mem_singleton.mp hc
      exact .inr ⟨rfl, rfl⟩
  have hrecyclable : ∀ s : Storage, s.allocated = 3 → ∀ r ∈ some recycledVector, Recyclable s r := by
    rintro s hs r hr
    obtain rfl := Option.some.inj hr
    unfold Recyclable
    rw [hs]
    decide
  obtain ⟨g, t, hexec, -, hview⟩ := (coldRoundTrip hsupported hreach).2.1 rfl (some recycledVector) (hrecyclable _ rfl)
  refine ⟨_, _, hreach, rfl, g, t, hexec, hview, ?_⟩
  have hvector := congrArg (fun x => x.1.toOption.map Snapshot.h) hexec
  exact (Option.some.inj hvector).symm

/-- A storage with one tensor. -/
def oneTensor (dtype : DeviceTensorDType) (elemSize count : ℕ) : Storage where
  gpu := some { h := some ⟨⟨count, elemSize, dtype⟩, 0⟩ }
  layout := none
  host := none
  copying := false
  memory := ⟨fun _ k => UInt8.ofNat k, fun _ _ => 0⟩
  queue := []
  asked := []
  allocated := 1

/-- Two numbers of sixteen bits go into the host buffer, and never come back. -/
theorem half_stranded : ∃ s v, (storageMachine (fun _ => 4) v).Reachable s ∧ s.gpu = none ∧
    ∀ recycled outcomes, ∃ e t, (restore recycled).exec (s, outcomes) = (.error e, t) := by
  have hreach : (storageMachine (fun _ => 4) (view (oneTensor .f16 2 2).memory.device
      { h := some ⟨⟨2, 2, .f16⟩, 0⟩ })).Reachable _ :=
    ⟨oneTensor .f16 2 2, [.stageOut (some 0) [], .finishOffload false []],
      ⟨⟨_, rfl, rfl⟩, rfl, rfl, rfl, rfl, rfl⟩, rfl⟩
  exact ⟨_, _, hreach, rfl, fun recycled outcomes => ⟨_, _, rfl⟩⟩

end Runs

end Qw3.Prefix.StateStorage
