import Qw3.RawK.Records

/-!
# The result of a task, and its launch

The slot of a task stays in flight until its result has been entered chunk by chunk.  The
result is taken from the future first; so an exception in between leaves a slot that is in
flight and has no result, and nothing reaps it again.  A launch that fails is rolled back.

* `Left` — what an exception leaves behind, by where it was thrown.
* `reapSlot_runs`, `kvmemSubmitRawKWritebackSlot_runs` — the result of one task and the launch of
  one: each record is completed or left alone, also where they throw.
* `kvmemFlushRawKWrites_runs` — a flush that waits and returns leaves no chunk pending.
-/

namespace Qw3.RawK.Writeback

open Qw3.Store (Span)
open Qw3.Repository (KvMemBlockHandle)

/-- In order, and of the records before each is left alone or completed. -/
structure Good (c : Config) (new : ℕ → Prop) (s₀ s : State) : Prop where
  ordered : Ordered c s
  frame : Frame c new s₀ s
  generation_eq : s.storageGeneration = s₀.storageGeneration

/-- What an exception leaves behind. -/
def Left (c : Config) (new : ℕ → Prop) (s₀ : State) (f : Failure) (s : State) : Prop :=
  match f with
  | .refused _ | .packing _ | .launch _ => Good c new s₀ s ∧ ∀ x, new x → FlagsEq c x s₀ s
  | .background _ | .bookkeeping _ => Dead s
  | .noState => False
  | .outOfFuel => True

/-- An exception of a flush is one that a call of the rest of the executor threw. -/
def Blames {ω : Type} (o : Outside ω) : Failure → Prop
  | .launch e => ∃ i s w, (o.launch i s w).1 = .error e
  | .background e => ∃ i s w, (o.outcome i s w).1 = .error e
  | .bookkeeping e => (∃ first count s w, (o.repositorySlotRead first count s w).1 = .error e) ∨
      ∃ x d s w, (o.gcRawChunkState x d s w).1 = .error e
  | _ => False

theorem Good.refl {c : Config} {new : ℕ → Prop} {s : State} (h : Ordered c s) : Good c new s s := ⟨h, .refl, rfl⟩

theorem Good.trans {c : Config} {new : ℕ → Prop} {s t u : State} (h : Good c new s t) (h' : Good c new t u) :
    Good c new s u :=
  ⟨h'.ordered, h.frame.trans h'.frame, h'.generation_eq.trans h.generation_eq⟩

/-! ## Runs, as far as the state goes -/

/-- From `P` a call returns with `Q`, or throws with `E`. -/
def Runs {ω α : Type} (P : State → Prop) (x : Program (State × ω) Failure α) (Q : α → State → Prop)
    (E : Failure → State → Prop) : Prop :=
  Program.Triple (fun p => P p.1) x (fun a p => Q a p.1) fun f p => E f p.1

namespace Runs

variable {ω α β : Type} {P P' : State → Prop} {x : Program (State × ω) Failure α} {Q Q' : α → State → Prop}
  {E E' : Failure → State → Prop}

theorem conseq (h : Runs P x Q E) (hP : ∀ s, P' s → P s) (hQ : ∀ a s, Q a s → Q' a s)
    (hE : ∀ f s, E f s → E' f s) : Runs P' x Q' E' :=
  Program.Triple.conseq h (fun p hp => hP p.1 hp) (fun a p hq => hQ a p.1 hq) fun f p he => hE f p.1 he

theorem pre (h : Runs P x Q E) (hP : ∀ s, P' s → P s) : Runs P' x Q E :=
  h.conseq hP (fun _ _ h => h) fun _ _ h => h

theorem of_eq (h : ∀ s, P s → Runs (fun t => t = s) x Q E) : Runs P x Q E := fun p hp => h p.1 hp p rfl

theorem pure {a : α} (h : ∀ s, P s → Q a s) : Runs P (Pure.pure a : Program (State × ω) Failure α) Q E :=
  Program.Triple.pure fun p hp => h p.1 hp

theorem throw {f : Failure} (h : ∀ s, P s → E f s) :
    Runs P (MonadExcept.throw f : Program (State × ω) Failure α) Q E :=
  Program.Triple.throw fun p hp => h p.1 hp

theorem bind {f : α → Program (State × ω) Failure β} {R : β → State → Prop} (hx : Runs P x Q E)
    (hf : ∀ a, Runs (Q a) (f a) R E) : Runs P (x >>= f) R E :=
  Program.Triple.bind hx hf

theorem get {f : State × ω → Program (State × ω) Failure β} {R : β → State → Prop}
    (h : ∀ s w, P s → Runs (fun t => t = s) (f (s, w)) R E) : Runs P (MonadState.get >>= f) R E := by
  refine Program.Triple.bind_get ?_
  rintro ⟨s, w⟩ hs
  refine Program.Triple.pre (h s w hs) ?_
  rintro _ rfl
  rfl

theorem modify {f : State × ω → State} {Q : Unit → State → Prop} (h : ∀ p, P p.1 → Q () (f p)) :
    Runs P (modify fun p => (f p, p.2)) Q E :=
  Program.Triple.modify h

/-- The rest of the executor goes on. -/
theorem wait {f : State × ω → ω} {Q : Unit → State → Prop} (h : ∀ s, P s → Q () s) :
    Runs P (MonadState.modifyGet fun p => ((), p.1, f p) : Program (State × ω) Failure Unit) Q E :=
  Program.Triple.modify (f := fun p => (p.1, f p)) fun p hp => h p.1 hp

theorem loop {I Q : State → Prop} {step : Program (State × ω) Failure Bool}
    (hstep : Runs I step (fun again s => if again then I s else Q s) E) {out : Failure}
    (hout : ∀ s, I s → E out s) (fuel : ℕ) : Runs I (Program.loop out step fuel) (fun _ => Q) E :=
  Program.Triple.loop_forever (σ := State × ω) (I := fun p => I p.1) (Q := fun p => Q p.1) hstep
    (fun p hp => hout p.1 hp) fuel

theorem tryCatch {F : Failure → State → Prop} {handle : Failure → Program (State × ω) Failure α} (hx : Runs P x Q F)
    (hh : ∀ f, Runs (F f) (handle f) Q E) : Runs P (tryCatch x handle) Q E :=
  Program.Triple.tryCatch hx hh

/-- A call of the rest of the executor leaves the state. -/
theorem outside (place : String → Failure) (call : Call ω α)
    (hE : ∀ s w e, P s → (call s w).1 = .error e → E (place e) s) :
    Runs P (outside place call) (fun _ => P) E := by
  intro p hp
  have hcall := fun e => hE p.1 p.2 e hp
  unfold Program.exec Writeback.outside
  revert hcall
  cases (call p.1 p.2).1 with
  | ok a => exact fun _ => hp
  | error e => exact fun hcall => hcall e rfl

theorem forM_done {I : List β → State → Prop} {f : β → Program (State × ω) Failure Unit} (l : List β)
    (h : ∀ done, ∀ a ∈ l, Runs (I done) (f a) (fun _ => I (done ++ [a])) E) :
    Runs (I []) (l.forM f) (fun _ => I l) E :=
  Program.Triple.forM_done (σ := State × ω) (I := fun done p => I done p.1) l h []

end Runs

section Calls

variable {ω α : Type} {c : Config} {o : Outside ω} {s : State} {i j : Fin 2} {P : State → Prop}
  {E : Failure → State → Prop}

/-! ## The chunks of a finished batch -/

/-- The chunks `done` of a finished batch are entered, and the others as they were. -/
structure Finishing (c : Config) (i : Fin 2) (s : State) (done : List ℕ) (t : State) : Prop where
  slots_eq : t.slots = (s.setSlot i fun slot => { slot with future := false }).slots
  generation_eq : t.storageGeneration = s.storageGeneration
  others : ∀ y ∉ done, t.writePending y = s.writePending y ∧ FlagsEq c y s t ∧ t.chunkSlot y = s.chunkSlot y ∧
    t.chunkOffset y = s.chunkOffset y ∧ t.ready y = s.ready y
  finished : ∀ y ∈ done, t.writePending y = false ∧ t.chunkSlot y = none

/-- The same in the middle of chunk `x`. -/
structure Half (c : Config) (i : Fin 2) (s : State) (done : List ℕ) (x : ℕ) (t : State) : Prop where
  slots_eq : t.slots = (s.setSlot i fun slot => { slot with future := false }).slots
  generation_eq : t.storageGeneration = s.storageGeneration
  others : ∀ y ∉ done, y ≠ x → t.writePending y = s.writePending y ∧ FlagsEq c y s t ∧
    t.chunkSlot y = s.chunkSlot y ∧ t.chunkOffset y = s.chunkOffset y ∧ t.ready y = s.ready y
  finished : ∀ y ∈ done, t.writePending y = false ∧ t.chunkSlot y = none
  slot_eq : x ∉ done → t.chunkSlot x = s.chunkSlot x

variable {done : List ℕ}

/-- A chunk that is not begun is as good as half done. -/
theorem Finishing.half {t : State} (h : Finishing c i s done t) (x : ℕ) : Half c i s done x t :=
  ⟨h.slots_eq, h.generation_eq, fun y hy _ => h.others y hy, h.finished, fun hx => (h.others x hx).2.2.1⟩

/-- Half way, the task is in flight and its result is gone. -/
theorem Half.dead {x : ℕ} {t : State} (h : Half c i s done x t)
    (hi : (s.slots i).inFlight = true) : Dead t := by
  refine ⟨i, ?_⟩
  rw [h.slots_eq, setSlot_self]
  exact ⟨hi, rfl⟩

/-- Only what is about chunk `x` changes. -/
structure Around (c : Config) (x : ℕ) (t u : State) : Prop where
  slots_eq : u.slots = t.slots
  generation_eq : u.storageGeneration = t.storageGeneration
  others : ∀ y, y ≠ x → u.writePending y = t.writePending y ∧ FlagsEq c y t u ∧ u.chunkSlot y = t.chunkSlot y ∧
    u.chunkOffset y = t.chunkOffset y ∧ u.ready y = t.ready y
  pending : t.writePending x = false → u.writePending x = false
  slot_eq : u.chunkSlot x = t.chunkSlot x

/-- Flags of the chunk itself may change meanwhile. -/
theorem Half.around {x : ℕ} {t u : State} (h : Half c i s done x t) (hu : Around c x t u) :
    Half c i s done x u where
  slots_eq := hu.slots_eq.trans h.slots_eq
  generation_eq := hu.generation_eq.trans h.generation_eq
  others y hy hne := by
    obtain ⟨hpending, hflags, hslot, hoffset, hready⟩ := h.others y hy hne
    obtain ⟨hpending', hflags', hslot', hoffset', hready'⟩ := hu.others y hne
    exact ⟨hpending'.trans hpending, hflags.trans hflags', hslot'.trans hslot, hoffset'.trans hoffset,
      hready'.trans hready⟩
  finished y hy := by
    obtain ⟨hpending, hslot⟩ := h.finished y hy
    rcases eq_or_ne y x with rfl | hne
    · exact ⟨hu.pending hpending, hu.slot_eq.trans hslot⟩
    · exact ⟨(hu.others y hne).1.trans hpending, (hu.others y hne).2.2.1.trans hslot⟩
  slot_eq hx := hu.slot_eq.trans (h.slot_eq hx)

theorem around_backed (c : Config) (x : ℕ) (t : State) (a b d e : Bool) :
    Around c x t { t with
      backed := State.setBits c t.backed x a b, dirty := State.setBits c t.dirty x d e } where
  slots_eq := rfl
  generation_eq := rfl
  others _ hy := ⟨rfl, fun m => ⟨setBits_ne c _ hy a b m, setBits_ne c _ hy d e m, fun _ _ => rfl⟩, rfl, rfl, rfl⟩
  pending := id
  slot_eq := rfl

theorem around_flag (c : Config) (x : ℕ) (t : State) (a b : Bool) :
    Around c x t { t with backed := State.setBits c t.backed x a b } where
  slots_eq := rfl
  generation_eq := rfl
  others _ hy := ⟨rfl, fun m => ⟨setBits_ne c _ hy a b m, rfl, fun _ _ => rfl⟩, rfl, rfl, rfl⟩
  pending := id
  slot_eq := rfl

theorem around_pending (c : Config) (x : ℕ) (t : State) (a b : Bool) :
    Around c x t { t with
      dirty := State.setBits c t.dirty x a b, writePending := Function.update t.writePending x false } where
  slots_eq := rfl
  generation_eq := rfl
  others _ hy := ⟨Function.update_of_ne hy .., fun m => ⟨rfl, setBits_ne c _ hy a b m, fun _ _ => rfl⟩, rfl, rfl, rfl⟩
  pending _ := Function.update_self ..
  slot_eq := rfl

theorem around_block {x d : ℕ} (t : State) (hd : d < c.blocksPerChunk) (a b : Bool) :
    Around c x t { t with
      blockBacked := State.setBits c t.blockBacked (x * c.blocksPerChunk + d) a b } where
  slots_eq := rfl
  generation_eq := rfl
  others y hy := by
    refine ⟨rfl, fun m => ⟨rfl, rfl, fun k hk => ?_⟩, rfl, rfl, rfl⟩
    exact setBits_ne c _ (block_ne hy hk hd) a b m
  pending := id
  slot_eq := rfl

/-- An exception in the middle of a batch. -/
def Spoilt (o : Outside ω) (f : Failure) (s : State) : Prop :=
  Blames o f ∧ ((∃ e, f = .background e) ∨ ∃ e, f = .bookkeeping e) ∧ Dead s

/-- A block of the chunk is entered. -/
theorem finishBlock_runs {x id : ℕ} (hs : Ordered c s) (hid : id ∈ c.blocksOf x) :
    Runs (Half c i s done x) (finishBlock c (s.slots i).capture id : Program (State × ω) Failure Unit)
      (fun _ => Half c i s done x) (Spoilt o) := by
  obtain ⟨d, hd, hiddef⟩ := mem_blocksOf hid
  unfold finishBlock
  refine .get fun t w ht => ?_
  have hsame : ∀ u, u = t → Half c i s done x u := fun u hu => hu ▸ ht
  dsimp only
  split
  · exact .pure hsame
  · next captured hfind =>
      have hmem := List.mem_of_find?_eq_some hfind
      have hslot : captured.handle.slot = id := by simpa using List.find?_some hfind
      split
      · next hstale =>
          refine absurd ?_ hstale
          rw [ht.generation_eq, ← hslot]
          exact hs.current i captured hmem
      · refine .modify fun p hp => ?_
        rw [hiddef]
        exact (hsame p.1 hp).around (around_block _ hd true true)

/-- Reading which blocks a chunk has leaves the state alone. -/
theorem rawChunkRead_runs {x : ℕ} (hx : c.Readable x) (place : String → Failure)
    (hE : ∀ first count s w e, P s → (o.repositorySlotRead first count s w).1 = .error e → E (place e) s) :
    Runs P (kvmemRepositoryRawChunkRead c o place x) (fun _ => P) E := by
  unfold kvmemRepositoryRawChunkRead
  dsimp only
  split
  · next hbad =>
      rw [Bool.or_eq_true, decide_eq_true_iff, decide_eq_true_iff] at hbad
      rcases hbad with hzero | hle
      · exact absurd hzero hx.1
      · exact absurd hx.2 (Nat.not_lt.mpr hle)
  · exact .outside _ _ fun s w e hp he => hE _ _ s w e hp he

/-- The vectors let go of a chunk that is entered. -/
theorem Half.finish {x : ℕ} {t : State} (h : Half c i s done x t) (hpending : t.writePending x = false)
    (hx : s.chunkSlot x = some i) :
    Finishing c i s (done ++ [x]) (if t.chunkSlot x = some i then
      { t with
        chunkSlot := Function.update t.chunkSlot x none
        chunkOffset := Function.update t.chunkOffset x 0
        ready := Function.update t.ready x false }
    else t) := by
  have hcases : ∀ {y}, y ∈ done ++ [x] → y ≠ x → y ∈ done := by
    intro y hy hne
    rcases List.mem_append.mp hy with hy | hy
    · exact hy
    · exact absurd (List.mem_singleton.mp hy) hne
  have hout : ∀ {y}, y ∉ done ++ [x] → y ∉ done ∧ y ≠ x := by
    intro y hy
    rw [List.mem_append, not_or, List.mem_singleton] at hy
    exact hy
  split_ifs with hslot
  · refine ⟨h.slots_eq, h.generation_eq, fun y hy => ?_, fun y hy => ?_⟩
    · obtain ⟨hdone, hne⟩ := hout hy
      dsimp only
      rw [Function.update_of_ne hne, Function.update_of_ne hne, Function.update_of_ne hne]
      exact h.others y hdone hne
    · rcases eq_or_ne y x with rfl | hne
      · exact ⟨hpending, Function.update_self ..⟩
      · refine ⟨(h.finished y (hcases hy hne)).1, ?_⟩
        exact (Function.update_of_ne hne ..).trans (h.finished y (hcases hy hne)).2
  · have hnone : t.chunkSlot x = none := by
      by_cases hdone : x ∈ done
      · exact (h.finished x hdone).2
      · exact absurd ((h.slot_eq hdone).trans hx) hslot
    refine ⟨h.slots_eq, h.generation_eq, fun y hy => h.others y (hout hy).1 (hout hy).2, fun y hy => ?_⟩
    rcases eq_or_ne y x with rfl | hne
    · exact ⟨hpending, hnone⟩
    · exact h.finished y (hcases hy hne)

/-- A chunk of the result is finished, or the pass throws half way. -/
theorem finishChunk_runs {x : ℕ} (done : List ℕ) (hs : Ordered c s) (hi : (s.slots i).inFlight = true)
    (hx : x ∈ (s.slots i).chunks) :
    Runs (Finishing c i s done) (finishChunk c o i x) (fun _ => Finishing c i s (done ++ [x])) (Spoilt o) := by
  unfold finishChunk
  refine .bind (.modify (Q := fun _ => Half c i s done x) ?_) fun _ => ?_
  · intro p hp
    exact (hp.half x).around (around_flag c x p.1 true true)
  refine .get fun t w ht => ?_
  have hcapture : (t.slots i).capture = (s.slots i).capture := by
    rw [ht.slots_eq, setSlot_self]
  refine .bind (Q := fun _ => Half c i s done x) ?_ fun _ => ?_
  · show Runs _ ((c.blocksOf x).forM (finishBlock c (t.slots i).capture)) _ _
    rw [hcapture]
    refine Runs.pre (P := Half c i s done x) ?_ fun u hu => hu ▸ ht
    exact Program.Triple.forM (c.blocksOf x) fun id hid => finishBlock_runs hs hid
  refine .bind (.modify (Q := fun _ t => Half c i s done x t ∧ t.writePending x = false) ?_) fun _ => ?_
  · intro p hp
    exact ⟨hp.around (around_pending c x p.1 false false), Function.update_self ..⟩
  refine .bind (Q := fun _ t => Half c i s done x t ∧ t.writePending x = false) ?_ fun _ => ?_
  · unfold kvmemUpdateRepositoryRawChunkBacked
    refine .bind (rawChunkRead_runs (hs.readable i x hx) _ ?_) fun view => .modify ?_
    · intro first count t w e ht he
      exact ⟨.inl ⟨first, count, t, w, he⟩, .inr ⟨e, rfl⟩, ht.1.dead hi⟩
    · intro p hp
      exact ⟨hp.1.around (around_backed c x p.1 _ _ _ _), hp.2⟩
  refine .bind (.outside _ _ ?_) fun _ => .modify ?_
  · intro t w e ht he
    exact ⟨.inr ⟨x, true, t, w, he⟩, .inr ⟨e, rfl⟩, ht.1.dead hi⟩
  · intro p hp
    exact hp.1.finish hp.2 ((hs.staged_iff x i).mpr hx)

/-! ## The result of a task -/

/-- A slot whose chunks are all entered is emptied. -/
theorem Finishing.good {t : State} (h : Finishing c i s (s.slots i).chunks t) (hs : Ordered c s) :
    Good c (fun _ => False) s
      (t.setSlot i fun slot => { host := slot.host, capacityBytes := slot.capacityBytes }) := by
  have hother : ∀ {j}, j ≠ i →
      (t.setSlot i fun slot => { host := slot.host, capacityBytes := slot.capacityBytes }).slots j = s.slots j := by
    intro j hj
    rw [setSlot_ne hj, h.slots_eq, setSlot_ne hj]
  refine ⟨?_, ?_, h.generation_eq⟩
  · constructor
    · intro j hj
      rcases eq_or_ne j i with rfl | hne
      · rw [setSlot_self] at hj
        cases hj
      · rw [hother hne] at hj ⊢
        exact hs.future j hj
    · intro x j
      show t.chunkSlot x = some j ↔ _
      by_cases hx : x ∈ (s.slots i).chunks
      · have hi := (hs.staged_iff x i).mpr hx
        rw [(h.finished x hx).2]
        rcases eq_or_ne j i with rfl | hne
        · rw [setSlot_self]
          simp
        · rw [hother hne, ← hs.staged_iff, hi]
          simp [hne.symm]
      · rw [(h.others x hx).2.2.1, hs.staged_iff]
        rcases eq_or_ne j i with rfl | hne
        · rw [setSlot_self]
          simp [hx]
        · rw [hother hne]
    · intro x
      show t.writePending x = true ↔ (t.chunkSlot x).isSome
      by_cases hx : x ∈ (s.slots i).chunks
      · rw [(h.finished x hx).1, (h.finished x hx).2]
        simp
      · rw [(h.others x hx).1, (h.others x hx).2.2.1]
        exact hs.pending_iff x
    · intro j
      rcases eq_or_ne j i with rfl | hne
      · rw [setSlot_self]
        exact iff_of_true rfl rfl
      · rw [hother hne]
        exact hs.used_iff j
    · intro j hj
      rcases eq_or_ne j i with rfl | hne
      · rw [setSlot_self] at hj
        exact absurd rfl hj
      · rw [hother hne] at hj ⊢
        exact hs.submittable j hj
    · intro j span hspan
      rcases eq_or_ne j i with rfl | hne
      · rw [setSlot_self] at hspan
        cases hspan
      · rw [hother hne] at hspan
        exact (congrFun h.generation_eq _).trans (hs.current j span hspan)
    · intro j x hx
      rcases eq_or_ne j i with rfl | hne
      · rw [setSlot_self] at hx
        cases hx
      · rw [hother hne] at hx
        exact hs.readable j x hx
  · intro x _
    by_cases hx : x ∈ (s.slots i).chunks
    · exact .inr ⟨hs.pending_of_staged hx, (h.finished x hx).1⟩
    · left
      obtain ⟨hpending, hflags, hslot, hoffset, hready⟩ := h.others x hx
      refine ⟨hpending, hflags, fun _ => ⟨hslot, hoffset, hready, ?_⟩⟩
      intro j hj
      have hne : j ≠ i := by
        rintro rfl
        exact hx ((hs.staged_iff x j).mp hj)
      rw [hother hne]
      exact .refl _

/-- A batch keeps the slot that it is not about. -/
theorem Finishing.other {t : State} (h : Finishing c i s done t) (hj : j ≠ i) :
    t.slots j = s.slots j := by
  rw [h.slots_eq, setSlot_ne hj]

/-- What a slot is like after a call that took its result where it could. -/
theorem reapSlot_runs (hs : Ordered c s) (waitAll : Bool) (i : Fin 2) :
    Runs (fun t => t = s) (reapSlot c o waitAll i)
      (fun _ t => Good c (fun _ => False) s t ∧ (∀ j, j ≠ i → t.slots j = s.slots j) ∧
        (waitAll = true → (t.slots i).inFlight = false ∧ ((s.slots i).inFlight = true → (t.slots i).chunks = []) ∧
          ((s.slots i).inFlight = false → t.slots i = s.slots i)))
      fun f t => Spoilt o f t := by
  have hstay : ∀ t, t = s → Good c (fun _ => False) s t ∧ ∀ j, j ≠ i → t.slots j = s.slots j := by
    rintro _ rfl
    exact ⟨.refl hs, fun _ _ => rfl⟩
  unfold reapSlot
  refine .get fun t w ht => ?_
  subst ht
  dsimp only
  split
  · next hidle =>
      refine .pure fun u hu => ?_
      subst hu
      have hidle' : (u.slots i).inFlight = false := by simpa using hidle
      exact ⟨(hstay u rfl).1, (hstay u rfl).2, fun _ => ⟨hidle', fun h => absurd (hidle'.symm.trans h) Bool.false_ne_true,
        fun _ => rfl⟩⟩
  · next hflight =>
      have hflight' : (t.slots i).inFlight = true := by simpa using hflight
      split
      · next hfuture =>
          rw [hs.future i hflight'] at hfuture
          cases hfuture
      · split
        · next hwait =>
            refine .pure fun u hu => ?_
            subst hu
            refine ⟨(hstay u rfl).1, (hstay u rfl).2, fun hall => ?_⟩
            rw [hall] at hwait
            cases hwait
        · refine .bind (.modify (Q := fun _ => Finishing c i t []) ?_) fun _ => ?_
          · rintro ⟨u, v⟩ hu
            change u = t at hu
            subst hu
            exact ⟨rfl, rfl, fun y _ => ⟨rfl, .refl, rfl, rfl, rfl⟩, nofun⟩
          refine .bind (.outside _ _ ?_) fun _ => ?_
          · intro u v e hu he
            refine ⟨⟨i, u, v, he⟩, .inl ⟨e, rfl⟩, (hu.half 0).dead hflight'⟩
          refine .bind (Q := fun _ => Finishing c i t (t.slots i).chunks) ?_ fun _ => .modify fun p hp => ?_
          · exact .forM_done (t.slots i).chunks fun done x hx => finishChunk_runs done hs hflight' hx
          · refine ⟨hp.good hs, fun j hj => ?_, fun _ => ?_⟩
            · rw [setSlot_ne hj, hp.other hj]
            · rw [setSlot_self]
              exact ⟨rfl, fun _ => rfl, fun h => absurd (h.symm.trans hflight') Bool.false_ne_true⟩

/-- What an exception of a flush is, and what it leaves behind. -/
def Thrown (c : Config) (o : Outside ω) (s₀ : State) (f : Failure) (t : State) : Prop :=
  Blames o f ∧ Left c (fun _ => False) s₀ f t

theorem Spoilt.thrown {s₀ t : State} {f : Failure} (h : Spoilt o f t) : Thrown c o s₀ f t := by
  obtain ⟨hblames, ⟨e, rfl⟩ | ⟨e, rfl⟩, hdead⟩ := h
  · exact ⟨hblames, hdead⟩
  · exact ⟨hblames, hdead⟩

theorem Good.left {new : ℕ → Prop} {s₀ s t : State} {f : Failure} (h : Good c new s₀ s)
    (hflags : ∀ x, new x → FlagsEq c x s₀ s) (ht : Left c new s f t) : Left c new s₀ f t := by
  cases f with
  | refused e => exact ⟨h.trans ht.1, fun x hx => (hflags x hx).trans (ht.2 x hx)⟩
  | packing e => exact ⟨h.trans ht.1, fun x hx => (hflags x hx).trans (ht.2 x hx)⟩
  | launch e => exact ⟨h.trans ht.1, fun x hx => (hflags x hx).trans (ht.2 x hx)⟩
  | background e => exact ht
  | bookkeeping e => exact ht
  | noState => exact ht
  | outOfFuel => exact ht

theorem Good.thrown {s₀ s t : State} {f : Failure} (h : Good c (fun _ => False) s₀ s) (ht : Thrown c o s f t) :
    Thrown c o s₀ f t :=
  ⟨ht.1, h.left nofun ht.2⟩

/-- A slot that is in flight or empty. -/
def Away (t : State) (i : Fin 2) : Prop := (t.slots i).inFlight = true ∨ (t.slots i).chunks = []

/-! ## The launch of a task -/

/-- A slot whose task is launched keeps its records. -/
theorem Good.launched (hs : Ordered c s) (i : Fin 2) :
    Good c (fun _ => False) s (s.setSlot i fun slot => { slot with future := true, inFlight := true }) := by
  have hslot : ∀ j, ∃ future inFlight, (s.setSlot i fun slot => { slot with future := true, inFlight := true }).slots j =
      { s.slots j with future, inFlight } ∧ ((s.slots j).inFlight = true → inFlight = true) ∧
      (inFlight = true → future = true) := by
    intro j
    rcases eq_or_ne j i with rfl | hne
    · exact ⟨true, true, setSlot_self, fun _ => rfl, fun _ => rfl⟩
    · exact ⟨(s.slots j).future, (s.slots j).inFlight, setSlot_ne hne, id, hs.future j⟩
  refine ⟨?_, ?_, rfl⟩
  · constructor
    · intro j hj
      obtain ⟨future, inFlight, heq, -, himp⟩ := hslot j
      rw [heq] at hj ⊢
      exact himp hj
    · intro x j
      obtain ⟨future, inFlight, heq, -⟩ := hslot j
      rw [heq]
      exact hs.staged_iff x j
    · exact hs.pending_iff
    · intro j
      obtain ⟨future, inFlight, heq, -⟩ := hslot j
      rw [heq]
      exact hs.used_iff j
    · intro j
      obtain ⟨future, inFlight, heq, -⟩ := hslot j
      rw [heq]
      exact hs.submittable j
    · intro j
      obtain ⟨future, inFlight, heq, -⟩ := hslot j
      rw [heq]
      exact hs.current j
    · intro j
      obtain ⟨future, inFlight, heq, -⟩ := hslot j
      rw [heq]
      exact hs.readable j
  · refine fun x _ => .inl ⟨rfl, .refl, fun _ => ⟨rfl, rfl, rfl, fun j _ => ?_⟩⟩
    obtain ⟨future, inFlight, heq, hflight, -⟩ := hslot j
    rw [heq]
    exact ⟨List.prefix_rfl, List.prefix_rfl, List.prefix_rfl, .refl _, hflight⟩

/-- A submission that throws leaves the slot staged. -/
theorem kvmemSubmitRawKWritebackSlot_runs (hs : Ordered c s) (i : Fin 2) :
    Runs (fun t => t = s) (kvmemSubmitRawKWritebackSlot o i)
      (fun _ t => Good c (fun _ => False) s t ∧ (∀ j, j ≠ i → t.slots j = s.slots j) ∧ Away t i)
      (fun f t => t = s ∧ Blames o f ∧ ∃ e, f = .launch e) := by
  unfold kvmemSubmitRawKWritebackSlot
  refine .get fun t w ht => ?_
  subst ht
  dsimp only
  split
  · next hidle =>
      refine .pure fun u hu => ?_
      subst hu
      refine ⟨.refl hs, fun _ _ => rfl, ?_⟩
      rw [Bool.or_eq_true, beq_iff_eq] at hidle
      exact hidle.imp id (hs.used_iff i).mp
  · next hbusy =>
      rw [Bool.or_eq_true, not_or, beq_iff_eq, hs.used_iff] at hbusy
      obtain ⟨hhost, hspans⟩ := hs.submittable i hbusy.2
      split
      · next hpartial =>
          -- Everything that is staged is published.
          refine absurd hpartial ?_
          rw [Bool.not_eq_true', Bool.not_eq_false, List.all_eq_true]
          exact fun x hx => hs.pending_of_staged hx
      · split
        · next hincomplete =>
            simp [hhost, hbusy.2, hspans] at hincomplete
        · refine .bind (.outside _ _ ?_) fun _ => .modify fun p hp => ?_
          · intro t v e ht he
            exact ⟨ht, ⟨i, t, v, he⟩, e, rfl⟩
          · rw [hp]
            refine ⟨.launched hs i, fun j hj => setSlot_ne hj, .inl ?_⟩
            rw [setSlot_self]

/-- A slot that is waited for is empty afterwards. -/
theorem flushSlot_runs (hs : Ordered c s) (i : Fin 2) :
    Runs (fun t => t = s) (flushSlot o i)
      (fun _ t => Good c (fun _ => False) s t ∧ (∀ j, j ≠ i → t.slots j = s.slots j) ∧ Away t i)
      (Thrown c o s) := by
  unfold flushSlot
  refine .get fun t w ht => ?_
  subst ht
  dsimp only
  split
  · refine (kvmemSubmitRawKWritebackSlot_runs hs i).conseq (fun _ h => h) (fun _ _ h => h) ?_
    rintro _ _ ⟨rfl, hblames, e, rfl⟩
    exact ⟨hblames, .refl hs, nofun⟩
  · next hidle =>
      refine .pure fun u hu => ?_
      subst hu
      refine ⟨.refl hs, fun _ _ => rfl, ?_⟩
      rw [Bool.and_eq_true, not_and_or, Bool.not_eq_true', Bool.not_eq_false, bne_iff_ne, not_not] at hidle
      exact hidle.imp id (hs.used_iff i).mp

/-! ## Reaping and flushing -/

/-- A call from a state that is in order, after others. -/
theorem Runs.after {s₀ : State} {x : Program (State × ω) Failure α} {Q : State → α → State → Prop}
    (h : ∀ s, Ordered c s → Runs (fun t => t = s) x (fun a t => Good c (fun _ => False) s t ∧ Q s a t) (Thrown c o s)) :
    Runs (Good c (fun _ => False) s₀) x (fun _ => Good c (fun _ => False) s₀) (Thrown c o s₀) :=
  .of_eq fun s hs => (h s hs.ordered).conseq (fun _ h => h) (fun _ _ ht => hs.trans ht.1) fun _ _ ht => hs.thrown ht

/-- The results that are there are taken, those of both slots where it waits. -/
theorem kvmemReapRawKWrites_runs (s₀ : State) (waitAll : Bool) :
    Runs (Good c (fun _ => False) s₀) (kvmemReapRawKWrites c o waitAll) (fun _ => Good c (fun _ => False) s₀)
      (Thrown c o s₀) := by
  have hslot : ∀ i, Runs (Good c (fun _ => False) s₀) (reapSlot c o waitAll i)
      (fun _ => Good c (fun _ => False) s₀) (Thrown c o s₀) := fun i =>
    .after fun s hs => (reapSlot_runs hs waitAll i).conseq (fun _ h => h) (fun _ _ h => h) fun _ _ h => h.thrown
  exact .bind (hslot 0) fun _ => hslot 1

/-- A chunk of no slot is not pending. -/
theorem Ordered.not_pending_of_empty (hs : Ordered c s) (h : ∀ i, (s.slots i).chunks = []) (x : ℕ) :
    s.writePending x = false := by
  rw [← Bool.not_eq_true, hs.pending_iff, Option.isSome_iff_exists]
  rintro ⟨i, hi⟩
  have hmem := (hs.staged_iff x i).mp hi
  rw [h i] at hmem
  cases hmem

/-- A flush; one that waits for every task leaves no chunk pending. -/
theorem kvmemFlushRawKWrites_runs (hs : Ordered c s) (waitAll : Bool) :
    Runs (fun t => t = s) (kvmemFlushRawKWrites c o waitAll)
      (fun _ t => Good c (fun _ => False) s t ∧ (waitAll = true → ∀ x, t.writePending x = false))
      (Thrown c o s) := by
  -- Slot `0` is submitted before slot `1`, and they are reaped in that order; each of the
  -- four calls keeps the slot that it is not about.
  have hsubmit : ∀ (i : Fin 2) (K : State → Prop), (∀ u t, K u → (∀ j, j ≠ i → t.slots j = u.slots j) → K t) →
      Runs (fun t => Good c (fun _ => False) s t ∧ K t) (flushSlot o i)
        (fun _ t => Good c (fun _ => False) s t ∧ K t ∧ Away t i) (Thrown c o s) := by
    intro i K hK
    refine .of_eq fun u hu => (flushSlot_runs hu.1.ordered i).conseq (fun _ h => h) ?_ fun _ _ ht => hu.1.thrown ht
    exact fun _ t ht => ⟨hu.1.trans ht.1, hK u t hu.2 ht.2.1, ht.2.2⟩
  have hreap : ∀ (i : Fin 2) (K : State → Prop), (∀ u t, K u → (∀ j, j ≠ i → t.slots j = u.slots j) → K t) →
      Runs (fun t => Good c (fun _ => False) s t ∧ K t ∧ Away t i) (reapSlot c o waitAll i)
        (fun _ t => Good c (fun _ => False) s t ∧ K t ∧ (waitAll = true → (t.slots i).chunks = [])) (Thrown c o s) := by
    intro i K hK
    refine .of_eq fun u hu => (reapSlot_runs hu.1.ordered waitAll i).conseq (fun _ h => h) ?_
      fun _ _ ht => hu.1.thrown ht.thrown
    intro _ t ⟨hgood, hother, hwait⟩
    refine ⟨hu.1.trans hgood, hK u t hu.2.1 hother, fun hall => ?_⟩
    obtain ⟨-, hdone, hidle⟩ := hwait hall
    cases hflight : (u.slots i).inFlight with
    | true => exact hdone hflight
    | false =>
        rw [hidle hflight]
        refine hu.2.2.resolve_left ?_
        rw [hflight]
        exact Bool.false_ne_true
  have hone : (1 : Fin 2) ≠ 0 := by decide
  unfold kvmemFlushRawKWrites kvmemReapRawKWrites
  refine .bind ((hsubmit 0 (fun _ => True) fun _ _ _ _ => trivial).pre ?_) fun _ => ?_
  · rintro _ rfl
    exact ⟨.refl hs, trivial⟩
  refine .bind ((hsubmit 1 (fun t => Away t 0) fun u t hu hother => ?_).pre fun t ht => ⟨ht.1, ht.2.2⟩) fun _ => ?_
  · unfold Away
    rwa [hother 0 hone.symm]
  refine .bind ((hreap 0 (fun t => Away t 1) fun u t hu hother => ?_).pre fun t ht => ⟨ht.1, ht.2.2, ht.2.1⟩) fun _ => ?_
  · unfold Away
    rwa [hother 1 hone]
  refine ((hreap 1 (fun t => waitAll = true → (t.slots 0).chunks = []) fun u t hu hother => ?_).pre
    fun t ht => ⟨ht.1, ht.2.2, ht.2.1⟩).conseq (fun _ h => h) ?_ fun _ _ h => h
  · rwa [hother 0 hone.symm]
  · intro _ t ⟨hgood, hzero, hlast⟩
    refine ⟨hgood, fun hall => hgood.ordered.not_pending_of_empty fun i => ?_⟩
    match i with
    | 0 => exact hzero hall
    | 1 => exact hlast hall

end Calls

end Qw3.RawK.Writeback
