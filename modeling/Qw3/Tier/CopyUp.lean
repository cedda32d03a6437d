import Qw3.Tier.Arena

/-!
# Writes to the overlay

A write to a slot whose record is in the overlay is one positional write.  The
first write of a slot completes the record: it is a whole record, or the record of
the base file is copied first.

* `Overwrites` — what a step leaves of an arena outside a range of the overlay.
* `copyUp_spec` — the copy of a base record, chunk by chunk.
* `SlotWrite` — what a write of a range of a slot does; `writeSlotRange_spec`.
* `readSlotRange_eq` — what a read gives.
-/

namespace Qw3.Tier.Arena

/-- No positional call fails. -/
def NoFaults (a : Arena) : Prop := ∀ f ∈ a.faults, f = none

instance (a : Arena) : Decidable a.NoFaults := inferInstanceAs (Decidable (∀ f ∈ a.faults, f = none))

theorem NoFaults.tail {a b : Arena} (h : a.NoFaults) (hb : b.faults = a.faults.tail) :
    b.NoFaults := by
  intro f hf
  rw [hb] at hf
  exact h f (List.mem_of_mem_tail hf)

theorem NoFaults.limit_eq {a : Arena} (h : a.NoFaults) (n : ℕ) : a.limit n = n := by
  unfold limit
  cases hf : a.faults with
  | nil => rfl
  | cons f rest =>
      obtain rfl : f = none := h f (hf ▸ List.mem_cons_self)
      rfl

theorem limit_le (a : Arena) (n : ℕ) : a.limit n ≤ n := by
  unfold limit
  cases a.faults.head?.join with
  | none => exact Nat.le_refl n
  | some k => exact Nat.min_le_right k n

theorem ite_eq_ok {p : Prop} [Decidable p] {e : IoError} :
    (if p then .ok () else .error e : Except IoError Unit) = .ok () ↔ p := by
  split_ifs with h <;> simp [h]

/-! ## What a step leaves -/

/-- The overlay bytes of a range may have changed, nothing else. -/
structure Overwrites (lo hi : ℕ) (a b : Arena) : Prop where
  slotBytes : b.slotBytes = a.slotBytes
  slotCount : b.slotCount = a.slotCount
  base : b.base = a.base
  overlay : a.overlay.isSome → b.overlay.isSome
  state : b.overlayValid = a.overlayValid
  get : ∀ i, i < lo ∨ hi ≤ i → (b.file .overlay).get i = (a.file .overlay).get i
  length_le : (a.file .overlay).length ≤ (b.file .overlay).length

theorem Overwrites.refl (lo hi : ℕ) (a : Arena) : Overwrites lo hi a a :=
  ⟨rfl, rfl, rfl, id, rfl, fun _ _ => rfl, Nat.le_refl _⟩

theorem Overwrites.trans {lo hi : ℕ} {a b c : Arena} (h : Overwrites lo hi a b)
    (h' : Overwrites lo hi b c) : Overwrites lo hi a c where
  slotBytes := h'.slotBytes.trans h.slotBytes
  slotCount := h'.slotCount.trans h.slotCount
  base := h'.base.trans h.base
  overlay ha := h'.overlay (h.overlay ha)
  state := h'.state.trans h.state
  get i hi := (h'.get i hi).trans (h.get i hi)
  length_le := Nat.le_trans h.length_le h'.length_le

theorem Overwrites.mono {lo hi lo' hi' : ℕ} {a b : Arena} (h : Overwrites lo hi a b)
    (hlo : lo' ≤ lo) (hhi : hi ≤ hi') : Overwrites lo' hi' a b :=
  { h with get := fun i hi => h.get i (by omega) }

section Calls

variable {a b : Arena} {offset n : ℕ} {data : List UInt8} {r : Except IoError Unit}

/-- A write to the overlay, whole or not. -/
theorem pwriteAll_spec (h : a.pwriteAll .overlay data offset = (r, b)) :
    Overwrites offset (offset + data.length) a b ∧ b.faults = a.faults.tail ∧
      (a.NoFaults → r = .ok ()) ∧ (a.limit data.length = data.length → r = .ok ()) ∧
      (r = .ok () → b.file .overlay = (a.file .overlay).write offset data) := by
  obtain ⟨rfl, rfl⟩ := Prod.mk.inj h
  have hle := limit_le a data.length
  refine ⟨⟨rfl, rfl, rfl, fun _ => rfl, rfl, ?_, File.le_length_write ..⟩, rfl, ?_, ?_, ?_⟩
  · intro i hi
    apply File.get_write_of_not_mem
    rw [List.length_take]
    omega
  · intro hf
    exact ite_eq_ok.mpr (hf.limit_eq _)
  · intro hlimit
    exact ite_eq_ok.mpr hlimit
  · intro hok
    have hdone : a.limit data.length = data.length := ite_eq_ok.mp hok
    show (a.file .overlay).write offset (data.take (a.limit data.length)) = _
    rw [hdone, List.take_length]

/-- A read of the base file succeeds where the file has the bytes. -/
theorem preadAll_base_spec {got : List UInt8} (h : a.preadAll .base n offset = (r, got, b)) :
    (∀ lo hi, Overwrites lo hi a b) ∧ b.faults = a.faults.tail ∧
      (r = .ok () → a.base.Covers offset n ∧ got = a.base.read offset n) ∧
      (a.NoFaults → a.base.Covers offset n → r = .ok ()) := by
  obtain ⟨hr, hgot⟩ := Prod.mk.inj h
  obtain ⟨rfl, rfl⟩ := Prod.mk.inj hgot
  subst hr
  have hle := limit_le a n
  refine ⟨fun _ _ => ⟨rfl, rfl, rfl, id, rfl, fun _ _ => rfl, Nat.le_refl _⟩, rfl, ?_, ?_⟩
  · intro hok
    have hgot : min (a.limit n) (a.base.length - offset) = n := ite_eq_ok.mp hok
    refine ⟨?_, by rw [file, hgot]⟩
    unfold File.Covers
    omega
  · intro hf hcovers
    have hgot : min (a.limit n) (a.base.length - offset) = n := by
      rw [hf.limit_eq]
      unfold File.Covers at hcovers
      omega
    exact ite_eq_ok.mpr hgot

end Calls

/-! ## The copy of a base record -/

/-- A chunk of the base file is copied to the overlay. -/
theorem copyChunk_spec {a c d : Arena} {offset n : ℕ} {scratch : List UInt8}
    {r : Except IoError Unit} (hread : a.preadAll .base n offset = (.ok (), scratch, c))
    (hwrite : c.pwriteAll .overlay scratch offset = (r, d)) :
    Overwrites offset (offset + n) a d ∧ a.base.Covers offset n ∧
      (a.NoFaults → d.NoFaults ∧ r = .ok ()) ∧
      (r = .ok () → d.file .overlay = (c.file .overlay).write offset (a.base.read offset n)) := by
  obtain ⟨hac, hfaults, hgot, -⟩ := preadAll_base_spec hread
  obtain ⟨hcovers, rfl⟩ := hgot rfl
  obtain ⟨hcd, hfaults', hwf, -, hfile⟩ := pwriteAll_spec hwrite
  rw [File.length_read] at hcd
  refine ⟨(hac _ _).trans hcd, hcovers, ?_, hfile⟩
  intro hf
  have hc : c.NoFaults := hf.tail hfaults
  exact ⟨hc.tail hfaults', hwf hc⟩

/-- What a copy-up from `copied` on has done. -/
structure CopiedUp (slot copied : ℕ) (a b : Arena) : Prop where
  base_covers : a.slotOffset slot + a.slotBytes ≤ a.base.length
  covers : a.slotOffset slot + a.slotBytes ≤ (b.file .overlay).length
  get : ∀ i, a.slotOffset slot + copied ≤ i → i < a.slotOffset slot + a.slotBytes →
    (b.file .overlay).get i = a.base.get i

/-- A chunk, and the copy-up after it. -/
theorem CopiedUp.of_chunk {slot copied n : ℕ} {a b c d : Arena}
    (had : Overwrites (a.slotOffset slot + copied) (a.slotOffset slot + copied + n) a d)
    (hcovers : a.base.Covers (a.slotOffset slot + copied) n) (hn : 0 < n)
    (hfile : d.file .overlay = (c.file .overlay).write (a.slotOffset slot + copied)
      (a.base.read (a.slotOffset slot + copied) n))
    (hdb : Overwrites (a.slotOffset slot + (copied + n)) (a.slotOffset slot + a.slotBytes) d b)
    (hend : ¬ copied + n < a.slotBytes → copied + n = a.slotBytes)
    (hmore : copied + n < a.slotBytes → CopiedUp slot (copied + n) d b) :
    CopiedUp slot copied a b := by
  have hslot : d.slotOffset slot = a.slotOffset slot := by
    rw [slotOffset, slotOffset, had.slotBytes]
  have hnil : a.base.read (a.slotOffset slot + copied) n ≠ [] := by
    apply List.ne_nil_of_length_pos
    rwa [File.length_read]
  have hlength := File.le_length_write_append (c.file .overlay) (a.slotOffset slot + copied) hnil
  rw [File.length_read, ← hfile] at hlength
  constructor
  · by_cases hlast : copied + n < a.slotBytes
    · have hrest := (hmore hlast).base_covers
      rwa [hslot, had.slotBytes, had.base] at hrest
    · unfold File.Covers at hcovers
      have := hend hlast
      omega
  · by_cases hlast : copied + n < a.slotBytes
    · have hrest := (hmore hlast).covers
      rwa [hslot, had.slotBytes] at hrest
    · have := hend hlast
      have := hdb.length_le
      omega
  · intro i hle hi
    by_cases hin : i < a.slotOffset slot + copied + n
    · -- A byte of this chunk, which the later rounds leave.
      rw [hdb.get _ (.inl (by omega)), hfile]
      exact File.get_write_read _ _ hle hin
    · have hrest := (hmore (by omega)).get i
      rw [hslot, had.slotBytes, had.base] at hrest
      exact hrest (by omega) hi

/-- The copy-up of a slot from `copied` on. -/
theorem copyUp_spec {slot : ℕ} : ∀ {fuel copied : ℕ} {a b : Arena} {r : Except IoError Unit},
    a.slotBytes ≤ copied + fuel → copyUp slot fuel copied a = (r, b) →
    Overwrites (a.slotOffset slot + copied) (a.slotOffset slot + a.slotBytes) a b ∧
      (a.NoFaults → b.NoFaults) ∧
      (a.NoFaults → a.base.Covers (a.slotOffset slot) a.slotBytes → r = .ok ()) ∧
      (r = .ok () → copied < a.slotBytes → CopiedUp slot copied a b) := by
  intro fuel
  induction fuel with
  | zero =>
      intro copied a b r hfuel h
      obtain ⟨rfl, rfl⟩ := Prod.mk.inj h
      exact ⟨.refl _ _ _, id, fun _ _ => rfl, fun _ hlt => by omega⟩
  | succ fuel ih =>
      intro copied a b r hfuel h
      unfold copyUp at h
      split_ifs at h with hend
      · obtain ⟨rfl, rfl⟩ := Prod.mk.inj h
        exact ⟨.refl _ _ _, id, fun _ _ => rfl, fun _ hlt => by omega⟩
      · have hchunk : 0 < copyChunk := Nat.two_pow_pos 20
        dsimp only at h
        generalize hn : min (min copyChunk a.slotBytes) (a.slotBytes - copied) = n at h
        have hnpos : 0 < n := by omega
        have hnle : copied + n ≤ a.slotBytes := by omega
        generalize hread : a.preadAll .base n (a.slotOffset slot + copied) = read at h
        obtain ⟨rr, scratch, c⟩ := read
        obtain ⟨hac, hfaults, -, hsuccess⟩ := preadAll_base_spec hread
        cases rr with
        | error e =>
            obtain ⟨rfl, rfl⟩ := Prod.mk.inj h
            refine ⟨hac _ _, fun hf => hf.tail hfaults, ?_, by intro hok; cases hok⟩
            intro hf hcovers
            -- The chunk lies in the record.
            exact absurd (hsuccess hf (by unfold File.Covers at *; omega)) (by simp)
        | ok u =>
            dsimp only at h
            have hoffset : c.slotOffset slot = a.slotOffset slot := by
              rw [slotOffset, slotOffset, (hac 0 0).slotBytes]
            rw [hoffset] at h
            generalize hwrite : c.pwriteAll .overlay _ _ = written at h
            obtain ⟨rw', d⟩ := written
            obtain ⟨had, hcovers, hnf, hfile⟩ := copyChunk_spec hread hwrite
            have had' := had.mono (Nat.le_refl _)
              (by omega : a.slotOffset slot + copied + n ≤ a.slotOffset slot + a.slotBytes)
            cases rw' with
            | error e =>
                obtain ⟨rfl, rfl⟩ := Prod.mk.inj h
                refine ⟨had', fun hf => (hnf hf).1, ?_, by intro hok; cases hok⟩
                intro hf _
                exact absurd (hnf hf).2 (by simp)
            | ok u =>
                have hslot : d.slotOffset slot = a.slotOffset slot := by
                  rw [slotOffset, slotOffset, had.slotBytes]
                obtain ⟨hdb, hnfb, hsuccess', hmore⟩ := ih (by rw [had.slotBytes]; omega) h
                rw [hslot, had.slotBytes, had.base] at hsuccess'
                rw [hslot, had.slotBytes] at hdb
                rw [had.slotBytes] at hmore
                refine ⟨had'.trans (hdb.mono (by omega) (Nat.le_refl _)),
                  fun hf => hnfb (hnf hf).1, fun hf => hsuccess' (hnf hf).1, ?_⟩
                intro hok _
                exact .of_chunk had hcovers hnpos (hfile rfl) hdb (by omega) (hmore hok)

/-! ## One write -/

/-- A range of a slot of the arena. -/
def InRange (a : Arena) (slot : ℤ) (offset n : ℕ) : Prop :=
  a.HasSlot slot ∧ offset + n ≤ a.slotBytes

instance (a : Arena) (slot : ℤ) (offset n : ℕ) : Decidable (a.InRange slot offset n) :=
  inferInstanceAs (Decidable (_ ∧ _))

theorem HasSlot.toNat_lt {a : Arena} {slot : ℤ} (h : a.HasSlot slot) :
    slot.toNat < a.slotCount := by
  obtain ⟨hnonneg, hlt⟩ := h
  omega

theorem InRange.validate {a : Arena} {slot : ℤ} {offset n : ℕ} (h : a.InRange slot offset n)
    (op : IoOp) : a.validateSlotRangeIo slot offset n op = .ok () := by
  obtain ⟨hslot, hrange⟩ := h
  have hcount : a.slotCount ≠ 0 := by
    unfold HasSlot at hslot
    omega
  simp only [validateSlotRangeIo, validateSlotIo, validateIo, if_neg hcount,
    if_neg (by omega : ¬ a.slotBytes < n), Except.bind, if_pos hslot]
  rw [if_neg (by omega)]

/-- A write of the whole record. -/
def IsFull (a : Arena) (offset : ℕ) (data : List UInt8) : Prop :=
  offset = 0 ∧ data.length = a.slotBytes

instance (a : Arena) (offset : ℕ) (data : List UInt8) : Decidable (a.IsFull offset data) :=
  inferInstanceAs (Decidable (_ ∧ _))

/-- The base file has the record of a slot. -/
def BaseCovers (a : Arena) (slot : ℕ) : Prop := a.base.Covers (a.slotOffset slot) a.slotBytes

instance (a : Arena) (slot : ℕ) : Decidable (a.BaseCovers slot) :=
  inferInstanceAs (Decidable (a.base.Covers _ _))

/-- The byte of a record that the arena reads. -/
def recordByte (a : Arena) (slot i : ℕ) : UInt8 :=
  (a.file (a.readFd slot)).get (a.slotOffset slot + i)

/-- What a write of a range of a slot does. -/
structure SlotWrite (a : Arena) (slot offset : ℕ) (data : List UInt8) (r : Except IoError Unit)
    (b : Arena) : Prop where
  slotBytes : b.slotBytes = a.slotBytes
  slotCount : b.slotCount = a.slotCount
  base : b.base = a.base
  overlay : b.overlay.isSome
  state : b.overlayValid =
    Function.update a.overlayValid slot (if r = .ok () then .valid else a.overlayValid slot)
  get : ∀ i, i < a.slotOffset slot ∨ a.slotOffset slot + a.slotBytes ≤ i →
    (b.file .overlay).get i = (a.file .overlay).get i
  length_le : (a.file .overlay).length ≤ (b.file .overlay).length
  written : r = .ok () → ∀ i < a.slotBytes, (b.file .overlay).get (a.slotOffset slot + i) =
    ((if offset ≤ i then data[i - offset]? else none).getD (a.recordByte slot i))
  /-- A record that becomes valid is complete. -/
  complete : r = .ok () → a.overlayValid slot = .base →
    a.slotOffset slot + a.slotBytes ≤ (b.file .overlay).length ∧
      (a.IsFull offset data ∨ a.slotOffset slot + a.slotBytes ≤ a.base.length)
  succeeds : a.NoFaults →
    a.IsFull offset data ∨ a.overlayValid slot = .valid ∨ a.BaseCovers slot → r = .ok ()
  rewrites : a.overlayValid slot = .valid → a.limit data.length = data.length → r = .ok ()
  faults : a.NoFaults → b.NoFaults

section Write

variable {a b : Arena} {slot offset : ℕ} {data : List UInt8} {r : Except IoError Unit}

theorem get_pwriteAll {f g : File} {at' : ℕ} (h : g = f.write (at' + offset) data) (i : ℕ) :
    g.get (at' + i) = (if offset ≤ i then data[i - offset]? else none).getD (f.get (at' + i)) := by
  rw [h, File.get_write]
  by_cases hle : offset ≤ i
  · rw [if_pos (by omega), if_pos hle, Nat.add_sub_add_left]
  · rw [if_neg (by omega), if_neg hle, Option.getD_none]

/-- A write of a record that is in the overlay. -/
theorem slotWrite_of_valid (ho : a.overlay.isSome) (hrange : offset + data.length ≤ a.slotBytes)
    (hv : a.overlayValid slot = .valid)
    (h : a.pwriteAll .overlay data (a.slotOffset slot + offset) = (r, b)) :
    SlotWrite a slot offset data r b := by
  obtain ⟨hab, hfaults, hnf, hlimit, hfile⟩ := pwriteAll_spec h
  have hread : a.readFd slot = .overlay := if_pos ⟨ho, hv⟩
  constructor
  · exact hab.slotBytes
  · exact hab.slotCount
  · exact hab.base
  · exact hab.overlay ho
  · rw [hab.state, hv, ite_self, ← hv, Function.update_eq_self]
  · intro i hi
    exact hab.get i (by omega)
  · exact hab.length_le
  · intro hok i _
    rw [recordByte, hread]
    exact get_pwriteAll (hfile hok) i
  · intro _ hbase
    rw [hv] at hbase
    cases hbase
  · intro hf _
    exact hnf hf
  · intro _
    exact hlimit
  · intro hf
    exact hf.tail hfaults

/-- A first write that did something to the record of the slot only. -/
theorem SlotWrite.of_overwrites (ho : a.overlay.isSome) (hv : a.overlayValid slot = .base)
    (hab : Overwrites (a.slotOffset slot) (a.slotOffset slot + a.slotBytes)
      (a.setState slot .initializing) b)
    (hdone : r = .ok () → a.slotOffset slot + a.slotBytes ≤ (b.file .overlay).length ∧
      (a.IsFull offset data ∨ a.slotOffset slot + a.slotBytes ≤ a.base.length) ∧
      ∀ i < a.slotBytes, (b.file .overlay).get (a.slotOffset slot + i) =
        ((if offset ≤ i then data[i - offset]? else none).getD
          (a.base.get (a.slotOffset slot + i))))
    (hsucceeds : a.NoFaults → a.IsFull offset data ∨ a.BaseCovers slot → r = .ok ())
    (hfaults : a.NoFaults → b.NoFaults) :
    SlotWrite a slot offset data r (b.setState slot (if r = .ok () then .valid else .base)) := by
  have hread : a.readFd slot = .base := if_neg (by simp [hv])
  constructor
  · exact hab.slotBytes
  · exact hab.slotCount
  · exact hab.base
  · exact hab.overlay ho
  · show Function.update b.overlayValid slot _ = _
    rw [hab.state, hv]
    exact Function.update_idem ..
  · exact hab.get
  · exact hab.length_le
  · intro hok i hi
    rw [recordByte, hread]
    exact (hdone hok).2.2 i hi
  · intro hok _
    exact ⟨(hdone hok).1, (hdone hok).2.1⟩
  · rintro hf (hfull | hvalid | hcovers)
    · exact hsucceeds hf (.inl hfull)
    · rw [hv] at hvalid
      cases hvalid
    · exact hsucceeds hf (.inr hcovers)
  · intro hvalid
    rw [hv] at hvalid
    cases hvalid
  · exact hfaults

/-- The first write of a record. -/
theorem slotWrite_of_base (ho : a.overlay.isSome) (hrange : offset + data.length ≤ a.slotBytes)
    (hpos : 0 < a.slotBytes) (hv : a.overlayValid slot = .base)
    (h : (a.setState slot .initializing).initializeSlot slot offset data = (r, b)) :
    SlotWrite a slot offset data r (b.setState slot (if r = .ok () then .valid else .base)) := by
  unfold initializeSlot at h
  split_ifs at h with hfull
  · -- The record is written as a whole.
    dsimp only at h
    obtain ⟨hab, hfaults, hnf, -, hfile⟩ := pwriteAll_spec h
    refine .of_overwrites ho hv (hab.mono (Nat.le_add_right ..) ?_) ?_ (fun hf _ => hnf hf)
      (fun hf => NoFaults.tail hf hfaults)
    · show a.slotOffset slot + offset + data.length ≤ a.slotOffset slot + a.slotBytes
      omega
    · intro hok
      obtain ⟨rfl, hlength⟩ : offset = 0 ∧ data.length = a.slotBytes := hfull
      have hne : data ≠ [] := List.ne_nil_of_length_pos (by omega)
      have hle := File.le_length_write_append (a.file .overlay) (a.slotOffset slot) hne
      refine ⟨?_, .inl ⟨rfl, hlength⟩, ?_⟩
      · rw [hfile hok, ← hlength]
        exact hle
      · intro i hi
        have hget := get_pwriteAll (hfile hok) i
        rw [if_pos (Nat.zero_le i), Nat.sub_zero, List.getElem?_eq_getElem (by omega)] at hget ⊢
        exact hget
  · generalize hcopy : copyUp slot _ 0 _ = copied at h
    obtain ⟨rc, c⟩ := copied
    obtain ⟨hac, hnf, hsuccess, hcopied⟩ := copyUp_spec (Nat.le_add_left ..) hcopy
    cases rc with
    | error e =>
        obtain ⟨rfl, rfl⟩ := Prod.mk.inj h
        refine .of_overwrites ho hv hac (fun hok => by cases hok) ?_ hnf
        rintro hf (hfull' | hcovers)
        · exact absurd hfull' hfull
        · exact absurd (hsuccess hf hcovers) (by simp)
    | ok u =>
        dsimp only at h
        obtain ⟨hcb, hfaults, hnfb, -, hfile⟩ := pwriteAll_spec h
        have hslot : c.slotOffset slot = a.slotOffset slot := by
          rw [slotOffset, slotOffset, hac.slotBytes]
          rfl
        obtain ⟨hbase, hlength, hget⟩ := hcopied rfl hpos
        rw [hslot] at hcb hfile
        refine .of_overwrites ho hv (hac.trans (hcb.mono (Nat.le_add_right ..) ?_)) ?_
          (fun hf _ => hnfb (hnf hf)) (fun hf => NoFaults.tail (hnf hf) hfaults)
        · show a.slotOffset slot + offset + data.length ≤ a.slotOffset slot + a.slotBytes
          omega
        · intro hok
          refine ⟨Nat.le_trans hlength hcb.length_le, .inr hbase, ?_⟩
          intro i hi
          have hold : (c.file .overlay).get (a.slotOffset slot + i) =
              a.base.get (a.slotOffset slot + i) :=
            hget _ (Nat.le_add_right ..) (Nat.add_lt_add_left hi _)
          rw [get_pwriteAll (hfile hok) i, hold]

end Write

/-- A write within a slot of an arena that has an overlay and no writer. -/
theorem writeSlotRange_spec {a : Arena} {slot : ℤ} {offset : ℕ} {data : List UInt8}
    (ho : a.overlay.isSome) (hpos : 0 < a.slotBytes) (hrange : a.InRange slot offset data.length)
    (hidle : a.overlayValid slot.toNat ≠ .initializing) :
    ∃ r b, a.writeSlotRange slot offset data = some (r, b) ∧
      SlotWrite a slot.toNat offset data r b := by
  have hnone : ¬ (a.readOnly = true ∧ a.overlay = none) := by
    rintro ⟨-, hn⟩
    rw [hn] at ho
    cases ho
  unfold writeSlotRange
  rw [if_neg hnone, hrange.validate]
  dsimp only
  rw [if_pos ho]
  unfold writeOverlaySlotRange
  cases hv : a.overlayValid slot.toNat with
  | initializing => exact absurd hv hidle
  | valid => exact ⟨_, _, rfl, slotWrite_of_valid ho hrange.2 hv rfl⟩
  | base =>
      dsimp only
      generalize hinit : initializeSlot _ slot.toNat offset data = written
      obtain ⟨r, b⟩ := written
      have hwrite := slotWrite_of_base ho hrange.2 hpos hv hinit
      cases r with
      | error e => exact ⟨_, _, rfl, hwrite⟩
      | ok u => exact ⟨_, _, rfl, hwrite⟩

/-! ## One read -/

theorem file_readFdForRange (a : Arena) (slot address bytes at' : ℕ) :
    a.file (a.readFdForRange slot address bytes at') = a.file (a.readFd slot) := by
  unfold readFdForRange
  split_ifs with h
  · rw [h.1]
    rfl
  · rfl

/-- A read without faults ends where its file ends. -/
theorem readSlotRange_eq {a : Arena} {slot : ℤ} {offset n : ℕ} (hf : a.NoFaults)
    (hrange : a.InRange slot offset n) (address : ℕ) :
    a.readSlotRange slot offset n address =
      (if min n ((a.file (a.readFd slot.toNat)).length - (a.slotOffset slot.toNat + offset)) = n
        then .ok () else .error .readFailed,
      (a.file (a.readFd slot.toNat)).read (a.slotOffset slot.toNat + offset)
        (min n ((a.file (a.readFd slot.toNat)).length - (a.slotOffset slot.toNat + offset)))) := by
  unfold readSlotRange preadAll
  rw [hrange.validate]
  dsimp only
  rw [file_readFdForRange, hf.limit_eq]

end Qw3.Tier.Arena
