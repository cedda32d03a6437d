import Mathlib.Data.Finset.Card
import Qw3.RawK.Budget

/-!
# The accounts of the CPU budget

* `Accounted` — each counter is the sum of what it counts, and together they stay
  within the budget.
* `Kept` — that, and what the eviction loop rests on: the recency list of the CPU
  tier is its blocks.
* `Kept.takeSlot`, `Kept.allocateSlab`, `Kept.resetSlab`, `Kept.releaseCpuSlot`,
  `Kept.resetChunk`, `Kept.allocateChunk` — every change of the accounts keeps them.
-/

namespace Qw3.RawK

open Qw3.Tier

/-- How many live flags slab `i` has, of `n` slots. -/
def liveIn (n : ℕ) (live : List Bool) (i : ℕ) : ℕ :=
  ((Finset.range live.length).filter fun j => j / n = i ∧ live[j]? = some true).card

/-- The bytes of the slabs that hold data. -/
def Config.heldBytes (c : Config) (slabs : List Slab) : ℕ :=
  ((slabs.filter fun slab => slab.data).map c.slabBytes).sum

/-- Each counter is the sum of what it counts, and together they stay within the
budget. -/
structure Accounted (c : Config) (s : State) : Prop where
  sparse_eq : s.sparseBytes = c.heldBytes s.slabs
  live_eq : ∀ i slab, s.slabs[i]? = some slab → slab.liveSlots = liveIn c.slotsPerSlab s.slotLive i
  data_of_live : ∀ j, s.slotLive[j]? = some true →
    ∃ slab, s.slabs[j / c.slotsPerSlab]? = some slab ∧ slab.data = true
  mirror_eq : ∀ mtp, (s.mirror mtp).bytes = c.chunkBytes mtp * (s.mirror mtp).chunks.count true
  total_le : (s.mirror false).bytes + (s.mirror true).bytes + s.sparseBytes ≤ c.budgetBytes

/-- The accounts are in order, and the recency list is the blocks of the tier. -/
structure Kept (c : Config) (s : State) : Prop where
  accounted : Accounted c s
  recency : s.tier.pool.Recency
  chunks_length : ∀ mtp, (s.mirror mtp).chunks.length = c.chunkCount mtp

/-! ## One flag, one slab, one chunk -/

section Counts

variable {n i j : ℕ} {live : List Bool}

/-- A flag that is set counts for its slab. -/
theorem liveIn_set_true (h : live[j]? = some false) :
    liveIn n (live.set j true) i = liveIn n live i + if j / n = i then 1 else 0 := by
  have hj : j < live.length := (List.getElem?_eq_some_iff.mp h).1
  unfold liveIn
  rw [List.length_set]
  split_ifs with hi
  · have hnot : j ∉ (Finset.range live.length).filter fun k => k / n = i ∧ live[k]? = some true := by
      rw [Finset.mem_filter, h]
      rintro ⟨-, -, hk⟩
      cases hk
    rw [← Finset.card_insert_of_notMem hnot]
    congr 1
    ext k
    rw [Finset.mem_insert, Finset.mem_filter, Finset.mem_filter]
    rcases eq_or_ne k j with rfl | hne
    · simp [hj, hi]
    · simp [hne, List.getElem?_set_ne hne.symm]
  · rw [Nat.add_zero]
    congr 1
    ext k
    rw [Finset.mem_filter, Finset.mem_filter]
    rcases eq_or_ne k j with rfl | hne
    · simp [hi]
    · rw [List.getElem?_set_ne hne.symm]

/-- A flag that is cleared counted for its slab. -/
theorem liveIn_set_false (h : live[j]? = some true) :
    liveIn n live i = liveIn n (live.set j false) i + if j / n = i then 1 else 0 := by
  obtain ⟨hj, hget⟩ := List.getElem?_eq_some_iff.mp h
  have hset : (live.set j false).set j true = live := by
    rw [List.set_set, ← hget, List.set_getElem_self]
  rw [← liveIn_set_true (List.getElem?_set_self hj), hset]

theorem liveIn_pos (h : live[j]? = some true) : 0 < liveIn n live (j / n) := by
  rw [liveIn_set_false h, if_pos rfl]
  exact Nat.succ_pos _

theorem liveIn_eq_zero (h : ∀ j : ℕ, live[j]? ≠ some true) : liveIn n live i = 0 := by
  unfold liveIn
  rw [Finset.card_eq_zero, Finset.filter_eq_empty_iff]
  rintro j - ⟨-, hj⟩
  exact h j hj

/-- What a slab counts for. -/
def Config.held (c : Config) (slab : Slab) : ℕ := if slab.data then c.slabBytes slab else 0

theorem heldBytes_cons (c : Config) (slab : Slab) (slabs : List Slab) :
    c.heldBytes (slab :: slabs) = c.held slab + c.heldBytes slabs := by
  unfold Config.heldBytes Config.held
  cases h : slab.data <;> simp [h]

theorem heldBytes_map (c : Config) {f : Slab → Slab} (hf : ∀ slab, c.held (f slab) = c.held slab)
    (slabs : List Slab) : c.heldBytes (slabs.map f) = c.heldBytes slabs := by
  induction slabs with
  | nil => rfl
  | cons slab slabs ih => rw [List.map_cons, heldBytes_cons, heldBytes_cons, hf, ih]

theorem heldBytes_eq_zero (c : Config) {slabs : List Slab} (h : ∀ slab ∈ slabs, slab.data = false) :
    c.heldBytes slabs = 0 := by
  unfold Config.heldBytes
  rw [List.filter_eq_nil_iff.mpr fun slab hslab => by simp [h slab hslab]]
  rfl

/-- A slab that is replaced. -/
theorem heldBytes_set (c : Config) {slabs : List Slab} {a : Slab} (b : Slab) (h : slabs[i]? = some a) :
    c.heldBytes (slabs.set i b) + c.held a = c.heldBytes slabs + c.held b := by
  induction slabs generalizing i with
  | nil => cases h
  | cons x slabs ih =>
      cases i with
      | zero =>
          obtain rfl : x = a := Option.some.inj h
          rw [List.set_cons_zero, heldBytes_cons, heldBytes_cons]
          omega
      | succ i =>
          rw [List.set_cons_succ, heldBytes_cons, heldBytes_cons, Nat.add_assoc, ih h, Nat.add_assoc]

/-- A mirror that is replaced. -/
theorem mirrored_update (mirror : Bool → Mirror) (mtp : Bool) (m : Mirror) :
    (Function.update mirror mtp m false).bytes + (Function.update mirror mtp m true).bytes + (mirror mtp).bytes =
      (mirror false).bytes + (mirror true).bytes + m.bytes := by
  cases mtp with
  | false =>
      rw [Function.update_self, Function.update_of_ne (by decide)]
      omega
  | true =>
      rw [Function.update_self, Function.update_of_ne (by decide)]
      omega

end Counts

theorem kvmemCpuBudgetHas_iff {c : Config} {s : State} {bytes : ℕ} :
    c.kvmemCpuBudgetHas s bytes ↔
      (s.mirror false).bytes + (s.mirror true).bytes + s.sparseBytes + bytes ≤ c.budgetBytes := by
  unfold Config.kvmemCpuBudgetHas
  rw [decide_eq_true_iff]
  omega

/-! ## The changes -/

section Changes

variable {c : Config} {s : State} {i j k : ℕ} {slab : Slab} {mtp : Bool}

theorem lookup_set {slabs : List Slab} {a b : Slab} (h : (slabs.set k a)[i]? = some b) :
    (i = k ∧ b = a) ∨ (i ≠ k ∧ slabs[i]? = some b) := by
  rcases eq_or_ne i k with rfl | hne
  · rw [List.getElem?_set, if_pos rfl] at h
    split_ifs at h
    exact .inl ⟨rfl, (Option.some.inj h).symm⟩
  · rw [List.getElem?_set_ne hne.symm] at h
    exact .inr ⟨hne, h⟩

theorem lookup_set_self {slabs : List Slab} {a b : Slab} (h : slabs[k]? = some a) :
    (slabs.set k b)[k]? = some b :=
  List.getElem?_set_self (List.getElem?_eq_some_iff.mp h).1

/-- A free slot of a slab with storage is taken. -/
theorem Accounted.takeSlot (h : Accounted c s) (hfree : s.slotLive[j]? = some false)
    (hslab : s.slabs[j / c.slotsPerSlab]? = some slab) (hdata : slab.data = true) :
    Accounted c (s.takeSlot j (j / c.slotsPerSlab) slab) where
  sparse_eq := by
    have hset := heldBytes_set c { slab with liveSlots := slab.liveSlots + 1 } hslab
    exact h.sparse_eq.trans (Nat.add_right_cancel hset).symm
  live_eq k b hb := by
    show _ = liveIn _ (s.slotLive.set j true) k
    rw [liveIn_set_true hfree]
    rcases lookup_set hb with ⟨rfl, rfl⟩ | ⟨hne, hb⟩
    · rw [if_pos rfl, ← h.live_eq _ _ hslab]
    · rw [if_neg hne.symm, ← h.live_eq _ _ hb, Nat.add_zero]
  data_of_live k hk := by
    show ∃ b, (s.slabs.set _ _)[_]? = some b ∧ _
    by_cases hkj : k / c.slotsPerSlab = j / c.slotsPerSlab
    · rw [hkj]
      exact ⟨_, lookup_set_self hslab, hdata⟩
    · rw [List.getElem?_set_ne (Ne.symm hkj)]
      apply h.data_of_live
      have hne : j ≠ k := by
        rintro rfl
        exact hkj rfl
      exact (List.getElem?_set_ne hne).symm.trans hk
  mirror_eq := h.mirror_eq
  total_le := h.total_le

/-- A live slot is given back, and its slab keeps its storage. -/
theorem Accounted.dropSlot (h : Accounted c s) (hlive : s.slotLive[j]? = some true)
    (hslab : s.slabs[j / c.slotsPerSlab]? = some slab) :
    Accounted c (s.dropSlot j (j / c.slotsPerSlab) slab) where
  sparse_eq := by
    have hset := heldBytes_set c { slab with liveSlots := slab.liveSlots - 1 } hslab
    exact h.sparse_eq.trans (Nat.add_right_cancel hset).symm
  live_eq k b hb := by
    have hcount : ∀ i, liveIn c.slotsPerSlab s.slotLive i =
        liveIn c.slotsPerSlab (s.slotLive.set j false) i + if j / c.slotsPerSlab = i then 1 else 0 :=
      fun i => liveIn_set_false hlive
    show _ = liveIn _ (s.slotLive.set j false) k
    rcases lookup_set hb with ⟨rfl, rfl⟩ | ⟨hne, hb⟩
    · show slab.liveSlots - 1 = _
      rw [h.live_eq _ _ hslab, hcount, if_pos rfl, Nat.add_sub_cancel]
    · rw [h.live_eq _ _ hb, hcount, if_neg hne.symm, Nat.add_zero]
  data_of_live k hk := by
    show ∃ b, (s.slabs.set _ _)[_]? = some b ∧ _
    change (s.slotLive.set j false)[k]? = some true at hk
    rcases eq_or_ne j k with rfl | hne
    · rw [List.getElem?_set_self (List.getElem?_eq_some_iff.mp hlive).1] at hk
      cases hk
    · obtain ⟨b, hb, hdata⟩ := h.data_of_live k ((List.getElem?_set_ne hne).symm.trans hk)
      by_cases hkj : k / c.slotsPerSlab = j / c.slotsPerSlab
      · rw [hkj] at hb ⊢
        obtain rfl : slab = b := Option.some.inj (hslab.symm.trans hb)
        exact ⟨_, lookup_set_self hslab, hdata⟩
      · exact ⟨b, (List.getElem?_set_ne (Ne.symm hkj)).trans hb, hdata⟩
  mirror_eq := h.mirror_eq
  total_le := h.total_le

/-- A slab gets its storage, as far as the budget has room for it. -/
theorem Accounted.allocateSlab (h : Accounted c s) (hslab : s.slabs[k]? = some slab)
    (hdata : slab.data = false) (hroom : c.kvmemCpuBudgetHas s (c.slabBytes slab)) :
    Accounted c (s.allocateSlab c k slab) where
  sparse_eq := by
    have hset := heldBytes_set c { slab with data := true } hslab
    have hold : c.held slab = 0 := by simp [Config.held, hdata]
    rw [hold, Nat.add_zero] at hset
    show s.sparseBytes + c.slabBytes slab = c.heldBytes (s.slabs.set k _)
    rw [hset, h.sparse_eq]
    rfl
  live_eq i b hb := by
    rcases lookup_set hb with ⟨rfl, rfl⟩ | ⟨-, hb⟩
    · exact h.live_eq i slab hslab
    · exact h.live_eq i b hb
  data_of_live j hj := by
    obtain ⟨b, hb, hbdata⟩ := h.data_of_live j hj
    show ∃ b, (s.slabs.set k _)[_]? = some b ∧ _
    rcases eq_or_ne (j / c.slotsPerSlab) k with heq | hne
    · rw [heq]
      exact ⟨_, lookup_set_self hslab, rfl⟩
    · rw [List.getElem?_set_ne hne.symm]
      exact ⟨b, hb, hbdata⟩
  mirror_eq := h.mirror_eq
  total_le := by
    rw [kvmemCpuBudgetHas_iff, Nat.add_assoc] at hroom
    exact hroom

/-- A slab without a live slot gives up its storage. -/
theorem Accounted.resetSlab (h : Accounted c s) (hslab : s.slabs[k]? = some slab)
    (hdata : slab.data = true) (hlive : slab.liveSlots = 0) :
    Accounted c (s.resetSlab c k slab) where
  sparse_eq := by
    have hset := heldBytes_set c { slab with data := false } hslab
    have hold : c.held slab = c.slabBytes slab := by simp [Config.held, hdata]
    rw [hold] at hset
    show s.sparseBytes - c.slabBytes slab = c.heldBytes (s.slabs.set k _)
    rw [h.sparse_eq]
    exact Nat.sub_eq_of_eq_add hset.symm
  live_eq i b hb := by
    rcases lookup_set hb with ⟨rfl, rfl⟩ | ⟨-, hb⟩
    · exact h.live_eq i slab hslab
    · exact h.live_eq i b hb
  data_of_live j hj := by
    obtain ⟨b, hb, hbdata⟩ := h.data_of_live j hj
    show ∃ b, (s.slabs.set k _)[_]? = some b ∧ _
    rcases eq_or_ne (j / c.slotsPerSlab) k with heq | hne
    · -- A live slot of the slab would have been counted.
      subst heq
      have hpos : 0 < liveIn c.slotsPerSlab s.slotLive (j / c.slotsPerSlab) := liveIn_pos hj
      rw [← h.live_eq _ _ hslab, hlive] at hpos
      exact absurd hpos (Nat.lt_irrefl 0)
    · rw [List.getElem?_set_ne hne.symm]
      exact ⟨b, hb, hbdata⟩
  mirror_eq := h.mirror_eq
  total_le := (Nat.add_le_add_left (Nat.sub_le _ _) _).trans h.total_le

/-- A chunk is freed. -/
theorem Accounted.resetChunk (h : Accounted c s) (hchunk : (s.mirror mtp).chunks[k]? = some true) :
    Accounted c (s.resetChunk mtp k (c.chunkBytes mtp)) where
  sparse_eq := h.sparse_eq
  live_eq := h.live_eq
  data_of_live := h.data_of_live
  mirror_eq m := by
    show (Function.update s.mirror mtp _ m).bytes = _ * (Function.update s.mirror mtp _ m).chunks.count true
    rcases eq_or_ne m mtp with rfl | hne
    · obtain ⟨hk, hget⟩ := List.getElem?_eq_some_iff.mp hchunk
      rw [Function.update_self, List.count_set hk, hget, h.mirror_eq]
      simp [Nat.mul_sub]
    · rw [Function.update_of_ne hne]
      exact h.mirror_eq m
  total_le := by
    have hle := h.total_le
    have hsum := mirrored_update s.mirror mtp
      ⟨(s.mirror mtp).chunks.set k false, (s.mirror mtp).bytes - c.chunkBytes mtp⟩
    show (Function.update s.mirror mtp _ false).bytes + (Function.update s.mirror mtp _ true).bytes +
      s.sparseBytes ≤ _
    dsimp only at hsum
    omega

/-- A chunk is allocated, as far as the budget has room for it. -/
theorem Accounted.allocateChunk (h : Accounted c s) (hchunk : (s.mirror mtp).chunks[k]? = some false)
    (hroom : c.kvmemCpuBudgetHas s (c.chunkBytes mtp)) :
    Accounted c (s.allocateChunk mtp k (c.chunkBytes mtp)) where
  sparse_eq := h.sparse_eq
  live_eq := h.live_eq
  data_of_live := h.data_of_live
  mirror_eq m := by
    show (Function.update s.mirror mtp _ m).bytes = _ * (Function.update s.mirror mtp _ m).chunks.count true
    rcases eq_or_ne m mtp with rfl | hne
    · obtain ⟨hk, hget⟩ := List.getElem?_eq_some_iff.mp hchunk
      rw [Function.update_self, List.count_set hk, hget, h.mirror_eq]
      simp [Nat.mul_add]
    · rw [Function.update_of_ne hne]
      exact h.mirror_eq m
  total_le := by
    rw [kvmemCpuBudgetHas_iff] at hroom
    have hsum := mirrored_update s.mirror mtp
      ⟨(s.mirror mtp).chunks.set k true, (s.mirror mtp).bytes + c.chunkBytes mtp⟩
    show (Function.update s.mirror mtp _ false).bytes + (Function.update s.mirror mtp _ true).bytes +
      s.sparseBytes ≤ _
    dsimp only at hsum
    omega

end Changes

/-! ## The operations -/

section Operations

variable {c : Config} {s : State}

theorem getD_eq_true {l : List Bool} {i : ℕ} : l.getD i false = true ↔ l[i]? = some true := by
  rw [List.getD_eq_getElem?_getD]
  cases l[i]? with
  | none => simp
  | some b => simp

theorem getD_eq_false {l : List Bool} {i : ℕ} (hi : i < l.length) :
    l.getD i false = false ↔ l[i]? = some false := by
  rw [List.getD_eq_getElem?_getD, List.getElem?_eq_getElem hi]
  simp

/-- What `kvmem_release_cpu_slot` does. -/
theorem releaseCpuSlot_cases (c : Config) (r : Bool) (slot : ℤ) :
    s.releaseCpuSlot c r slot = s ∨
    ∃ i slab, s.slotLive[i]? = some true ∧ s.slabs[i / c.slotsPerSlab]? = some slab ∧
      (s.releaseCpuSlot c r slot = s.dropSlot i (i / c.slotsPerSlab) slab ∨
        slab.data = true ∧ slab.liveSlots - 1 = 0 ∧
          s.releaseCpuSlot c r slot = (s.dropSlot i (i / c.slotsPerSlab) slab).resetSlab c
            (i / c.slotsPerSlab) { slab with liveSlots := slab.liveSlots - 1 }) := by
  cases slot with
  | negSucc _ => exact .inl rfl
  | ofNat i =>
      dsimp only [State.releaseCpuSlot]
      split
      · exact .inl rfl
      · next hlive =>
          split
          · exact .inl rfl
          · next slab hslab =>
              right
              rw [Bool.or_eq_true, not_or, Bool.not_eq_true', Bool.not_eq_true', Bool.not_eq_false,
                Bool.not_eq_false] at hlive
              refine ⟨i, slab, getD_eq_true.mp hlive.2, hslab, ?_⟩
              split
              · next hempty =>
                  rw [Bool.and_eq_true, Bool.and_eq_true, decide_eq_true_iff] at hempty
                  exact .inr ⟨hempty.1.2, hempty.1.1, rfl⟩
              · exact .inl rfl

theorem Accounted.releaseCpuSlot (h : Accounted c s) (r : Bool) (slot : ℤ) :
    Accounted c (s.releaseCpuSlot c r slot) := by
  rcases releaseCpuSlot_cases (s := s) c r slot with heq | ⟨i, slab, hlive, hslab, heq | ⟨hdata, hzero, heq⟩⟩
  · rw [heq]
    exact h
  · rw [heq]
    exact h.dropSlot hlive hslab
  · rw [heq]
    exact (h.dropSlot hlive hslab).resetSlab (lookup_set_self hslab) hdata hzero

/-- A released slot leaves the rest of the state. -/
theorem releaseCpuSlot_frame (c : Config) (r : Bool) (slot : ℤ) :
    (s.releaseCpuSlot c r slot).tier = s.tier ∧ (s.releaseCpuSlot c r slot).mirror = s.mirror := by
  rcases releaseCpuSlot_cases (s := s) c r slot with heq | ⟨i, slab, -, -, heq | ⟨-, -, heq⟩⟩ <;>
    rw [heq] <;> exact ⟨rfl, rfl⟩

theorem Kept.releaseCpuSlot (h : Kept c s) (r : Bool) (slot : ℤ) : Kept c (s.releaseCpuSlot c r slot) := by
  obtain ⟨htier, hmirror⟩ := releaseCpuSlot_frame (s := s) c r slot
  refine ⟨h.accounted.releaseCpuSlot r slot, ?_, ?_⟩
  · rw [htier]
    exact h.recency
  · rw [hmirror]
    exact h.chunks_length

/-- A block leaves the CPU tier. -/
theorem Kept.releaseBlock (h : Kept c s) (b : ℕ) : Kept c (s.releaseBlock b) :=
  ⟨⟨h.accounted.sparse_eq, h.accounted.live_eq, h.accounted.data_of_live, h.accounted.mirror_eq,
    h.accounted.total_le⟩, h.recency.release b, h.chunks_length⟩

/-- Calls of the CPU tier do not touch the accounts. -/
theorem Kept.tierCall (h : Kept c s) (call : TierCall) : Kept c { s with tier := s.tier.step call } := by
  refine ⟨⟨h.accounted.sparse_eq, h.accounted.live_eq, h.accounted.data_of_live, h.accounted.mirror_eq,
    h.accounted.total_le⟩, PinnedKvTier.recency_step h.recency ?_, h.chunks_length⟩
  obtain ⟨a, ha⟩ := call
  cases a with
  | touch b => exact absurd rfl (ha b)
  | _ => exact trivial

/-- What `evict_from` takes for the bytes of a chunk are its bytes. -/
theorem Kept.rawKChunkBytes_eq (h : Kept c s) {mtp : Bool} {k : ℕ}
    (hk : (s.mirror mtp).chunks[k]? = some true) : c.rawKChunkBytes mtp = c.chunkBytes mtp := by
  have hlt : k < c.chunkCount mtp := h.chunks_length mtp ▸ (List.getElem?_eq_some_iff.mp hk).1
  unfold Config.chunkCount at hlt
  unfold Config.rawKChunkBytes
  split_ifs at hlt ⊢
  · exact absurd hlt (Nat.not_lt_zero k)
  · rfl

theorem length_chunks_update (s : State) (mtp m : Bool) (k bytes : ℕ) (b : Bool) :
    (Function.update s.mirror mtp ⟨(s.mirror mtp).chunks.set k b, bytes⟩ m).chunks.length =
      (s.mirror m).chunks.length := by
  rcases eq_or_ne m mtp with rfl | hne
  · rw [Function.update_self, List.length_set]
  · rw [Function.update_of_ne hne]

theorem Kept.resetChunk (h : Kept c s) {mtp : Bool} {k : ℕ}
    (hk : (s.mirror mtp).chunks[k]? = some true) : Kept c (s.resetChunk mtp k (c.chunkBytes mtp)) :=
  ⟨h.accounted.resetChunk hk, h.recency,
    fun m => (length_chunks_update s mtp m k _ false).trans (h.chunks_length m)⟩

theorem Kept.allocateChunk (h : Kept c s) {mtp : Bool} {k : ℕ}
    (hk : (s.mirror mtp).chunks[k]? = some false) (hroom : c.kvmemCpuBudgetHas s (c.chunkBytes mtp)) :
    Kept c (s.allocateChunk mtp k (c.chunkBytes mtp)) :=
  ⟨h.accounted.allocateChunk hk hroom, h.recency,
    fun m => (length_chunks_update s mtp m k _ true).trans (h.chunks_length m)⟩

/-- A loop that frees chunks. -/
theorem Kept.releaseSuffix (h : Kept c s) (mtp : Bool) (first : ℕ) : Kept c (s.releaseSuffix c mtp first) := by
  unfold State.releaseSuffix
  generalize List.range' first _ = is
  induction is generalizing s with
  | nil => exact h
  | cons i is ih =>
      rw [List.foldl_cons]
      split_ifs with hi
      · exact ih (h.resetChunk (getD_eq_true.mp hi))
      · exact ih h

theorem Kept.truncate (h : Kept c s) (tokenPos : ℕ) : Kept c (s.kvmemTruncateRawK c tokenPos) := by
  unfold State.kvmemTruncateRawK
  split_ifs
  · exact h
  · exact (h.releaseSuffix false _).releaseSuffix true _

theorem not_live_of_map (l : List Bool) (j : ℕ) : (l.map fun _ => false)[j]? ≠ some true := by
  rw [List.getElem?_map]
  cases l[j]? with
  | none => simp
  | some b => simp

/-- A reset frees all slots. -/
theorem Kept.reset (h : Kept c s) (retain : Bool) : Kept c (s.reset retain) where
  accounted := {
    sparse_eq := by
      cases retain with
      | true =>
          refine h.accounted.sparse_eq.trans (heldBytes_map c ?_ s.slabs).symm
          intro slab
          simp [Config.held, Config.slabBytes]
      | false =>
          refine (heldBytes_eq_zero c ?_).symm
          intro slab hslab
          obtain ⟨b, -, rfl⟩ := List.mem_map.mp hslab
          exact Bool.and_false _
    live_eq := by
      intro i slab hslab
      obtain ⟨b, -, rfl⟩ := List.mem_map.mp (List.mem_of_getElem? hslab)
      exact (liveIn_eq_zero (not_live_of_map s.slotLive)).symm
    data_of_live := fun j hj => absurd hj (not_live_of_map s.slotLive j)
    mirror_eq := h.accounted.mirror_eq
    total_le := by
      have hle := h.accounted.total_le
      show (s.mirror false).bytes + (s.mirror true).bytes + (if retain then s.sparseBytes else 0) ≤ _
      split_ifs
      · exact hle
      · exact (Nat.le_add_right _ _).trans hle }
  recency := .initial
  chunks_length := h.chunks_length

theorem Kept.initial (c : Config) : Kept c c.initial where
  accounted := {
    sparse_eq := by
      refine (heldBytes_eq_zero c ?_).symm
      intro slab hslab
      obtain ⟨i, -, rfl⟩ := List.mem_map.mp hslab
      rfl
    live_eq := by
      intro i slab hslab
      obtain ⟨j, -, rfl⟩ := List.mem_map.mp (List.mem_of_getElem? hslab)
      refine (liveIn_eq_zero fun k hk => ?_).symm
      cases List.eq_of_mem_replicate (List.mem_of_getElem? hk)
    data_of_live := fun j hj => nomatch List.eq_of_mem_replicate (List.mem_of_getElem? hj)
    mirror_eq := by
      intro mtp
      show 0 = _ * (List.replicate _ false).count true
      rw [List.count_replicate]
      exact (Nat.mul_zero _).symm
    total_le := Nat.zero_le _ }
  recency := .initial
  chunks_length := fun _ => List.length_replicate

/-! ## Chunks that stay free -/

/-- The accounts are in order, and none of the chunks `gone` is allocated. -/
structure Spared (c : Config) (gone : Bool → ℕ → Prop) (s : State) : Prop where
  kept : Kept c s
  absent : ∀ mtp k, gone mtp k → (s.mirror mtp).chunks[k]? ≠ some true

variable {gone : Bool → ℕ → Prop}

theorem Kept.spared (h : Kept c s) : Spared c (fun _ _ => False) s := ⟨h, nofun⟩

theorem Spared.of_mirror (h : Spared c gone s) {t : State} (ht : Kept c t) (hmirror : t.mirror = s.mirror) :
    Spared c gone t :=
  ⟨ht, fun mtp k hk => hmirror ▸ h.absent mtp k hk⟩

theorem Spared.releaseCpuSlot (h : Spared c gone s) (r : Bool) (slot : ℤ) :
    Spared c gone (s.releaseCpuSlot c r slot) :=
  h.of_mirror (h.kept.releaseCpuSlot r slot) (releaseCpuSlot_frame c r slot).2

theorem Spared.releaseBlock (h : Spared c gone s) (b : ℕ) : Spared c gone (s.releaseBlock b) :=
  h.of_mirror (h.kept.releaseBlock b) rfl

theorem Spared.resetChunk (h : Spared c gone s) {mtp : Bool} {k : ℕ}
    (hk : (s.mirror mtp).chunks[k]? = some true) :
    Spared c gone (s.resetChunk mtp k (c.chunkBytes mtp)) := by
  refine ⟨h.kept.resetChunk hk, ?_⟩
  intro m j hj
  show (Function.update s.mirror mtp _ m).chunks[j]? ≠ some true
  rcases eq_or_ne m mtp with rfl | hne
  · rw [Function.update_self, List.getElem?_set]
    split_ifs
    · simp
    · simp
    · exact h.absent m j hj
  · rw [Function.update_of_ne hne]
    exact h.absent m j hj

/-! ## What there is to give up -/

theorem countP_data_set {slabs : List Slab} {i : ℕ} {a : Slab} (b : Slab) (h : slabs[i]? = some a) :
    (slabs.set i b).countP (fun slab => slab.data) + (if a.data then 1 else 0) =
      slabs.countP (fun slab => slab.data) + if b.data then 1 else 0 := by
  obtain ⟨hi, rfl⟩ := List.getElem?_eq_some_iff.mp h
  rw [List.countP_set hi]
  have hpos : (if slabs[i].data then 1 else 0) ≤ slabs.countP fun slab => slab.data := by
    split_ifs with hdata
    · exact List.countP_pos_iff.mpr ⟨_, List.getElem_mem hi, hdata⟩
    · exact Nat.zero_le _
  omega

theorem evictable_resetSlab {i : ℕ} {slab : Slab} (hslab : s.slabs[i]? = some slab) (hdata : slab.data = true) :
    (s.resetSlab c i slab).evictable < s.evictable := by
  have hcount := countP_data_set { slab with data := false } hslab
  rw [if_pos hdata, if_neg Bool.false_ne_true] at hcount
  show (s.slabs.set i _).countP _ + _ + _ < s.slabs.countP _ + _ + _
  have hlt : (s.slabs.set i { slab with data := false }).countP (fun slab => slab.data) <
      s.slabs.countP fun slab => slab.data := Nat.lt_of_succ_le hcount.le
  exact Nat.add_lt_add_right (Nat.add_lt_add_right hlt _) _

theorem evictable_dropSlot {i k : ℕ} {slab : Slab} (hslab : s.slabs[k]? = some slab) :
    (s.dropSlot i k slab).evictable = s.evictable := by
  have hcount := countP_data_set { slab with liveSlots := slab.liveSlots - 1 } hslab
  show (s.slabs.set k _).countP _ + _ + _ = s.slabs.countP _ + _ + _
  rw [Nat.add_right_cancel hcount]
  rfl

theorem evictable_releaseCpuSlot_le (c : Config) (r : Bool) (slot : ℤ) :
    (s.releaseCpuSlot c r slot).evictable ≤ s.evictable := by
  rcases releaseCpuSlot_cases (s := s) c r slot with heq | ⟨i, slab, -, hslab, heq | ⟨hdata, -, heq⟩⟩
  · rw [heq]
  · rw [heq, evictable_dropSlot hslab]
  · rw [heq, ← evictable_dropSlot (i := i) hslab]
    exact Nat.le_of_lt (evictable_resetSlab (lookup_set_self hslab) hdata)

theorem Kept.evictable_releaseBlock (h : Kept c s) {b : ℕ} (hb : s.tier.pool.owner b ≠ none) :
    (s.releaseBlock b).evictable < s.evictable := by
  obtain ⟨slot, hslot⟩ := Option.ne_none_iff_exists'.mp hb
  have hmem : b ∈ s.tier.pool.recent := (h.recency.mem_iff b).mpr hb
  have hlt : (s.tier.releaseBlock b).pool.recent.length < s.tier.pool.recent.length := by
    show (s.tier.pool.release b).recent.length < _
    rw [SlotPool.release_of_some hslot, List.length_erase_of_mem hmem]
    exact Nat.sub_lt (List.length_pos_of_mem hmem) Nat.one_pos
  show _ + (s.tier.releaseBlock b).pool.recent.length + _ < _ + s.tier.pool.recent.length + _
  exact Nat.add_lt_add_right (Nat.add_lt_add_left hlt _) _

theorem evictable_resetChunk {mtp : Bool} {k bytes : ℕ} (hk : (s.mirror mtp).chunks[k]? = some true) :
    (s.resetChunk mtp k bytes).evictable < s.evictable := by
  obtain ⟨hlt, hget⟩ := List.getElem?_eq_some_iff.mp hk
  have hpos : 0 < (s.mirror mtp).chunks.count true := List.count_pos_iff.mpr (hget ▸ List.getElem_mem hlt)
  have hcount : ((s.mirror mtp).chunks.set k false).count true < (s.mirror mtp).chunks.count true := by
    rw [List.count_set hlt, hget]
    simpa using hpos
  show _ + ((Function.update s.mirror mtp _ false).chunks.count true +
    (Function.update s.mirror mtp _ true).chunks.count true) < _
  refine Nat.add_lt_add_left ?_ _
  cases mtp with
  | false =>
      rw [Function.update_self, Function.update_of_ne (by decide)]
      exact Nat.add_lt_add_right hcount _
  | true =>
      rw [Function.update_self, Function.update_of_ne (by decide)]
      exact Nat.add_lt_add_left hcount _

end Operations

end Qw3.RawK
