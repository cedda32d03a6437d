import Qw3.Tier.Ownership

/-!
# Eviction

A full tier makes room by replacing the block at the head of its recency list.
That works as long as the list is the resident blocks, each once.  `touch` puts a
block on the list without looking whether it is resident, so an eviction may find
a block there that has no slot.

The answer names the victim in an `int32_t`, with -1 for none.  A block id is a
`uint32_t`, so a victim from 2^31 on is named by a negative number, the last of
them by -1.

* `PinnedKvTier.Kept`, `NvmeKvTier.Kept` — the invariant of the runs that touch
  resident blocks only.
* `Evicts` — what a successful `place_block_evicting` does.
* `NamesVictim` — the block that would go has an id that the answer can hold.
* `evictionSucceeds` — in such runs it succeeds in every state.
* `evictionSucceeds_stale` — a touch of a block that was released meanwhile, and a
  victim that the answer does not name.
-/

namespace Qw3.Tier

/-- A placement of `b` in one of `n` slots, which evicts nothing or a block that
was resident and names it. -/
structure Evicts (n : ℕ) (p q : SlotPool ℕ ℤ) (b : ℕ) (out : SlotPlacement) : Prop where
  valid : 0 ≤ out.slot ∧ out.slot < n
  placed : q.owner b = some out.slot
  evicted : (out.evictedBlock = -1 ∧ ∀ c, p.owner c ≠ none → q.owner c ≠ none) ∨
    ∃ victim : ℕ, out.evictedBlock = victim ∧ p.owner victim = some out.slot ∧
      ∀ c, p.owner c ≠ none → q.owner c = none → c = victim

/-- A block without a slot in a full tier takes the place of one whose id fits `int32_t`. -/
def NamesVictim (p : SlotPool ℕ ℤ) (b : ℕ) : Prop :=
  p.owner b = none → p.free = [] → ∀ victim ∈ p.recent.head?, victim < 2 ^ 31

instance (p : SlotPool ℕ ℤ) (b : ℕ) : Decidable (NamesVictim p b) :=
  inferInstanceAs (Decidable (_ → _ → _))

section Evicts

variable {n b victim : ℕ} {p q : SlotPool ℕ ℤ} {slot : ℤ}

theorem Evicts.of_resident (hslot : 0 ≤ slot ∧ slot < n) (hb : p.owner b = some slot) :
    Evicts n p (p.touch b) b { slot } :=
  ⟨hslot, hb, .inl ⟨rfl, fun _ hc => hc⟩⟩

theorem Evicts.of_take (hslot : 0 ≤ slot ∧ slot < n) (ht : p.take b = some (slot, q)) :
    Evicts n p q b { slot } := by
  obtain ⟨-, howner, -⟩ := SlotPool.take_eq_some ht
  refine ⟨hslot, by rw [howner, Function.update_self], .inl ⟨rfl, ?_⟩⟩
  intro c hc
  rw [howner]
  rcases eq_or_ne c b with rfl | hne
  · simp
  · rwa [Function.update_of_ne hne]

theorem Evicts.of_replace (hslot : 0 ≤ slot ∧ slot < n) (hv : p.owner victim = some slot)
    (hnamed : victim < 2 ^ 31) :
    Evicts n p (p.replace victim b slot) b { slot, evictedBlock := toInt32 victim } := by
  have hb : (p.replace victim b slot).owner b = some slot := by
    rw [SlotPool.replace_owner, Function.update_self]
  refine ⟨hslot, hb, ?_⟩
  right
  refine ⟨victim, ?_, hv, ?_⟩
  · dsimp only
    rw [toInt32_of_lt hnamed]
  · intro c hc hnone
    rw [SlotPool.replace_owner] at hnone
    rcases eq_or_ne c b with rfl | hne
    · simp at hnone
    · by_contra hcv
      rw [Function.update_of_ne hne, Function.update_of_ne hcv] at hnone
      exact hc hnone

end Evicts

/-! ## The pinned tier -/

namespace PinnedKvTier

/-- The public operations that change the slots. -/
inductive Action
  | placeBlock (b : ℕ)
  | placeBlockEvicting (b : ℕ)
  | placeBlockReplacing (b : ℕ)
  | recordSelected (b : ℕ)
  | releaseBlock (b : ℕ)
  | forgetBlock (b : ℕ)
  | touch (b : ℕ)
  | clear
  deriving DecidableEq, Repr

/-- The tier after an operation. -/
def step (t : PinnedKvTier) : Action → PinnedKvTier
  | .placeBlock b => (t.placeBlock b).2
  | .placeBlockEvicting b => (t.placeBlockEvicting b).2
  | .placeBlockReplacing b => (t.placeBlockReplacing b).2
  | .recordSelected b => t.recordSelected b
  | .releaseBlock b => t.releaseBlock b
  | .forgetBlock b => t.releaseBlock b
  | .touch b => t.touch b
  | .clear => t.clear

/-- The operations on a tier of `total` bytes, in any order. -/
def machine (total slot : ℕ) : Machine PinnedKvTier Action where
  init t := t = initial total slot
  step t a := some (t.step a)

/-- A touch is of a resident block. -/
def TouchesResident (t : PinnedKvTier) (a : Action) : Prop :=
  match a with
  | .touch b => t.pool.owner b ≠ none
  | _ => True

instance (t : PinnedKvTier) (a : Action) : Decidable (TouchesResident t a) :=
  match a with
  | .touch b => inferInstanceAs (Decidable (t.pool.owner b ≠ none))
  | .placeBlock _ | .placeBlockEvicting _ | .placeBlockReplacing _ | .recordSelected _
  | .releaseBlock _ | .forgetBlock _ | .clear => .isTrue trivial

/-! The recency list alone, whatever the slots are. -/

section Recency

variable {t : PinnedKvTier} {b : ℕ} (h : t.pool.Recency)
include h

theorem recency_touch (hb : t.pool.owner b ≠ none) : (t.touch b).pool.Recency :=
  (SlotPool.recency_touch h b).mpr hb

theorem recency_placeBlock (b : ℕ) : (t.placeBlock b).2.pool.Recency := by
  unfold PinnedKvTier.placeBlock
  split
  · exact h
  · split
    · exact h
    · next slot pool ht => exact h.take ht

theorem recency_replaceLru (hb : t.pool.owner b = none) : (t.replaceLru b).2.pool.Recency := by
  unfold PinnedKvTier.replaceLru
  split
  · exact h
  · next victim rest hrecent =>
      obtain ⟨slot, hv⟩ := h.head_owner hrecent
      rw [hv]
      exact h.replace hb slot

theorem recency_placeBlockReplacing (b : ℕ) : (t.placeBlockReplacing b).2.pool.Recency := by
  unfold PinnedKvTier.placeBlockReplacing
  split
  · next slot hb => exact recency_touch h (by simp [hb])
  · next hb => exact recency_replaceLru h hb

theorem recency_placeBlockEvicting (b : ℕ) : (t.placeBlockEvicting b).2.pool.Recency := by
  unfold PinnedKvTier.placeBlockEvicting
  split
  · next slot hb => exact recency_touch h (by simp [hb])
  · next hb =>
      split_ifs
      · exact recency_placeBlock h b
      · exact recency_replaceLru h hb

theorem recency_step {a : Action} (ha : TouchesResident t a) : (t.step a).pool.Recency := by
  cases a with
  | placeBlock b => exact recency_placeBlock h b
  | placeBlockEvicting b => exact recency_placeBlockEvicting h b
  | placeBlockReplacing b => exact recency_placeBlockReplacing h b
  | releaseBlock b => exact h.release b
  | forgetBlock b => exact h.release b
  | touch b => exact recency_touch h ha
  | clear => exact .initial
  | recordSelected b =>
      show (if _ then _ else _ : PinnedKvTier).pool.Recency
      split_ifs with hb
      · exact recency_touch h (Option.isSome_iff_ne_none.mp hb)
      · exact h

end Recency

/-- Each slot is free or owned once, and the recency list is the owners. -/
structure Kept (n : ℕ) (t : PinnedKvTier) : Prop where
  count_eq : t.slotCount = n
  partition : t.pool.Partition (freshSlots n)
  recency : t.pool.Recency

section Kept

variable {n : ℕ} {t : PinnedKvTier} (h : Kept n t)
include h

theorem Kept.placeBlock_partition (b : ℕ) : (t.placeBlock b).2.pool.Partition (freshSlots n) ∧
    (t.placeBlock b).2.slotCount = n := by
  unfold PinnedKvTier.placeBlock
  split
  · exact ⟨h.partition, h.count_eq⟩
  · next hb =>
      split
      · exact ⟨h.partition, h.count_eq⟩
      · next slot pool ht => exact ⟨h.partition.take hb ht, h.count_eq⟩

theorem Kept.replaceLru_partition {b : ℕ} (hb : t.pool.owner b = none) :
    (t.replaceLru b).2.pool.Partition (freshSlots n) ∧ (t.replaceLru b).2.slotCount = n := by
  unfold PinnedKvTier.replaceLru
  split
  · exact ⟨h.partition, h.count_eq⟩
  · next victim rest hrecent =>
      obtain ⟨slot, hv⟩ := h.recency.head_owner hrecent
      rw [hv]
      exact ⟨h.partition.replace hb hv, h.count_eq⟩

theorem Kept.step_partition (a : Action) (hn : n ≤ 2 ^ 31) :
    (t.step a).pool.Partition (freshSlots n) ∧ (t.step a).slotCount = n := by
  cases a with
  | placeBlock b => exact h.placeBlock_partition b
  | releaseBlock b => exact ⟨h.partition.release b, h.count_eq⟩
  | forgetBlock b => exact ⟨h.partition.release b, h.count_eq⟩
  | touch b => exact ⟨h.partition.touch b, h.count_eq⟩
  | clear =>
      refine ⟨?_, h.count_eq⟩
      show SlotPool.Partition _ (.initial (freshSlots t.slotCount))
      rw [h.count_eq]
      exact .initial (NvmeKvTier.freshSlots_nodup (hn.trans (by norm_num)))
  | recordSelected b =>
      show (if _ then _ else _ : PinnedKvTier).pool.Partition _ ∧ (if _ then _ else _ : PinnedKvTier).slotCount = n
      split_ifs with hb
      · exact ⟨h.partition.touch b, h.count_eq⟩
      · exact ⟨h.partition, h.count_eq⟩
  | placeBlockEvicting b =>
      show (t.placeBlockEvicting b).2.pool.Partition _ ∧ (t.placeBlockEvicting b).2.slotCount = n
      unfold PinnedKvTier.placeBlockEvicting
      split
      · exact ⟨h.partition.touch b, h.count_eq⟩
      · next hb =>
          split_ifs
          · exact h.placeBlock_partition b
          · exact h.replaceLru_partition hb
  | placeBlockReplacing b =>
      show (t.placeBlockReplacing b).2.pool.Partition _ ∧ (t.placeBlockReplacing b).2.slotCount = n
      unfold PinnedKvTier.placeBlockReplacing
      split
      · exact ⟨h.partition.touch b, h.count_eq⟩
      · next hb => exact h.replaceLru_partition hb

theorem Kept.step {a : Action} (ha : TouchesResident t a) (hn : n ≤ 2 ^ 31) : Kept n (t.step a) :=
  ⟨(h.step_partition a hn).2, (h.step_partition a hn).1, recency_step h.recency ha⟩

/-- With a slot at all an eviction finds one. -/
theorem Kept.evicts (hn : n ≤ 2 ^ 31) (hpos : 0 < n) {b : ℕ} (hnames : NamesVictim t.pool b) :
    Evicts n t.pool (t.placeBlockEvicting b).2.pool b (t.placeBlockEvicting b).1 := by
  have hvalid : ∀ {c slot}, t.pool.owner c = some slot → 0 ≤ slot ∧ slot < n := fun hc =>
    (NvmeKvTier.mem_freshSlots hn).mp (h.partition.owned_mem hc)
  unfold PinnedKvTier.placeBlockEvicting
  split
  · next slot hb => exact .of_resident (hvalid hb) hb
  · next hb =>
      split_ifs with hfree
      · unfold PinnedKvTier.placeBlock
        rw [hb]
        cases ht : t.pool.take b with
        | none => exact absurd (SlotPool.take_eq_none.mp ht) hfree
        | some taken =>
            obtain ⟨hslot, -, -⟩ := SlotPool.take_eq_some ht
            refine .of_take ((NvmeKvTier.mem_freshSlots hn).mp ?_) ht
            exact (h.partition.mem_iff taken.1).mpr (.inl (hslot ▸ List.mem_cons_self))
      · have hne : t.pool.recent ≠ [] := h.recency.ne_nil h.partition (not_not.mp hfree) (by
          simp [freshSlots, hpos.ne'])
        unfold PinnedKvTier.replaceLru
        cases hrecent : t.pool.recent with
        | nil => exact absurd hrecent hne
        | cons victim rest =>
            obtain ⟨slot, hv⟩ := h.recency.head_owner hrecent
            simp only [hv]
            exact .of_replace (hvalid hv) hv (hnames hb (not_not.mp hfree) victim (by rw [hrecent]; rfl))

end Kept

theorem kept_invariant {total slot : ℕ} (hn : slotCountOf total slot ≤ 2 ^ 31) :
    ((machine total slot).restrict TouchesResident).Invariant (Kept (slotCountOf total slot)) where
  init t ht := by
    obtain rfl : t = initial total slot := ht
    exact ⟨rfl, .initial (NvmeKvTier.freshSlots_nodup (hn.trans (by norm_num))), .initial⟩
  step t a u ht hu := by
    obtain ⟨ha, hu⟩ := Machine.restrict_step.mp hu
    obtain rfl : t.step a = u := Option.some.inj hu
    exact ht.step ha hn

end PinnedKvTier

/-! ## The file tier -/

namespace NvmeKvTier

/-- A touch, also the one that ends a `write_block` or a `read_block`, is of a
resident block. -/
def TouchesResident (t : NvmeKvTier) (a : Action) : Prop :=
  match a with
  | .touch b => t.pool.owner b ≠ none
  | _ => True

instance (t : NvmeKvTier) (a : Action) : Decidable (TouchesResident t a) :=
  match a with
  | .touch b => inferInstanceAs (Decidable (t.pool.owner b ≠ none))
  | .placeBlock _ | .placeBlockEvicting _ | .releaseBlock _ | .writeBlock _ | .readBlock _ | .clear
  | .allocation _ | .tryAllocation _ _ | .tryReleaseAllocation _ _ => .isTrue trivial

/-- The slots are in order and the recency list is the owners. -/
structure Kept (t : NvmeKvTier) : Prop where
  slotted : Slotted t
  recency : t.pool.Recency

theorem Kept.moves {t u : NvmeKvTier} (h : Kept t) (hm : Moves t u) : Kept u := by
  refine ⟨h.slotted.moves hm, ?_⟩
  have hr := h.recency
  cases hm with
  | refl => exact hr
  | touched b hb => exact (SlotPool.recency_touch hr b).mpr hb
  | taken b slot pool hb ht => exact hr.take ht
  | replaced victim b slot hb hv => exact hr.replace hb slot
  | released b => exact hr.release b
  | cleared => exact .initial
  | dropped victim rest hrecent hv =>
      -- The head of the list has a slot.
      obtain ⟨slot, hown⟩ := hr.head_owner hrecent
      rw [hv] at hown
      cases hown

theorem Kept.step {t : NvmeKvTier} {a : Action} (h : Kept t) (ha : TouchesResident t a) :
    Kept (t.step a) := by
  rcases h.slotted.indexed.step_moves a with ⟨b, rfl, hstep⟩ | hm
  · rw [hstep]
    exact h.moves (.touched b ha)
  · exact h.moves hm

theorem Kept.evicts {t : NvmeKvTier} (h : Kept t) (hpos : 0 < t.slotCount) {b : ℕ} (hnames : NamesVictim t.pool b) :
    Evicts t.slotCount t.pool (t.placeBlockEvicting b).2.pool b (t.placeBlockEvicting b).1 := by
  cases hb : t.pool.owner b with
  | some slot =>
      rw [h.slotted.indexed.placeBlockEvicting_of_some hb]
      exact .of_resident (h.slotted.owned hb) hb
  | none =>
      cases ht : t.pool.take b with
      | some taken =>
          rw [h.slotted.indexed.placeBlockEvicting_of_take hb ht]
          obtain ⟨hslot, -, -⟩ := SlotPool.take_eq_some ht
          exact .of_take (h.slotted.free (hslot ▸ List.mem_cons_self)) ht
      | none =>
          have hfree := SlotPool.take_eq_none.mp ht
          have hne : t.pool.recent ≠ [] := h.recency.ne_nil h.slotted.partition hfree (by
            simp [freshSlots, hpos.ne'])
          rw [h.slotted.indexed.placeBlockEvicting_of_full hb hfree]
          cases hrecent : t.pool.recent with
          | nil => exact absurd hrecent hne
          | cons victim rest =>
              obtain ⟨slot, hv⟩ := h.recency.head_owner hrecent
              simp only [hv]
              exact .of_replace (h.slotted.owned hv) hv (hnames hb hfree victim (by rw [hrecent]; rfl))

theorem kept_invariant {c : NvmeKvTierConfig} (hc : c.Slotted) :
    ((machine c).restrict TouchesResident).Invariant Kept where
  init t ht := by
    obtain rfl : t = initial c := ht
    exact ⟨.initial hc, .initial⟩
  step t a u ht hu := by
    obtain ⟨ha, hu⟩ := Machine.restrict_step.mp hu
    obtain rfl : t.step a = u := Option.some.inj hu
    exact ht.step ha

end NvmeKvTier

/-! ## Both tiers -/

/-- In every run of either tier that touches resident blocks only, the recency
list is the resident blocks, each once, and `place_block_evicting` places every
block in a slot.  It evicts at most a block that was resident, and names it. -/
theorem evictionSucceeds (total slot : ℕ) (c : NvmeKvTierConfig) :
    (slotCountOf total slot ≤ 2 ^ 31 →
      ∀ t, ((PinnedKvTier.machine total slot).restrict PinnedKvTier.TouchesResident).Reachable t →
        t.pool.Recency ∧ (0 < t.slotCount → ∀ b, NamesVictim t.pool b →
          Evicts t.slotCount t.pool (t.placeBlockEvicting b).2.pool b
            (t.placeBlockEvicting b).1)) ∧
    (c.Slotted →
      ∀ t, ((NvmeKvTier.machine c).restrict NvmeKvTier.TouchesResident).Reachable t →
        t.pool.Recency ∧ (0 < t.slotCount → ∀ b, NamesVictim t.pool b →
          Evicts t.slotCount t.pool (t.placeBlockEvicting b).2.pool b
            (t.placeBlockEvicting b).1)) := by
  constructor
  · intro hn t ht
    have h := (PinnedKvTier.kept_invariant hn).reachable ht
    refine ⟨h.recency, ?_⟩
    intro hpos b hnames
    rw [h.count_eq] at hpos ⊢
    exact h.evicts hn hpos hnames
  · intro hc t ht
    have h := (NvmeKvTier.kept_invariant hc).reachable ht
    exact ⟨h.recency, fun hpos b => h.evicts hpos⟩

/-- Two tiers of two slots with blocks 1 and 3 in them, 1 touched last: block 2 replaces 3 in both. -/
theorem evictionSucceeds_twoSlots :
    (∃ t, ((PinnedKvTier.machine 2 1).restrict PinnedKvTier.TouchesResident).Reachable t ∧
      (t.placeBlockEvicting 2).1.evictedBlock = 3 ∧
      Evicts 2 t.pool (t.placeBlockEvicting 2).2.pool 2 (t.placeBlockEvicting 2).1) ∧
    ∃ t, ((NvmeKvTier.machine ⟨"kv", 2, 1, false⟩).restrict NvmeKvTier.TouchesResident).Reachable t ∧
      (t.placeBlockEvicting 2).1.evictedBlock = 3 ∧
      Evicts 2 t.pool (t.placeBlockEvicting 2).2.pool 2 (t.placeBlockEvicting 2).1 := by
  constructor
  · let t := (((PinnedKvTier.initial 2 1).placeBlock 1).2.placeBlock 3).2.touch 1
    have hreach : ((PinnedKvTier.machine 2 1).restrict PinnedKvTier.TouchesResident).Reachable t :=
      ⟨_, [.placeBlock 1, .placeBlock 3, .touch 1], rfl, rfl⟩
    exact ⟨t, hreach, rfl,
      ((evictionSucceeds 2 1 ⟨"kv", 2, 1, false⟩).1 (by decide) t hreach).2 (by decide) 2 (by decide)⟩
  · let t := (((NvmeKvTier.initial ⟨"kv", 2, 1, false⟩).placeBlock 1).2.placeBlock 3).2.step (.touch 1)
    have hreach : ((NvmeKvTier.machine ⟨"kv", 2, 1, false⟩).restrict NvmeKvTier.TouchesResident).Reachable t :=
      ⟨_, [.placeBlock 1, .placeBlock 3, .touch 1], rfl, rfl⟩
    have hslotted : NvmeKvTierConfig.Slotted ⟨"kv", 2, 1, false⟩ := by
      refine ⟨rfl, ?_, ?_⟩ <;> decide
    exact ⟨t, hreach, rfl, ((evictionSucceeds 2 1 _).2 hslotted t hreach).2 (by decide) 2 (by decide)⟩

/-- A block is touched after it was released: by `touch` in the pinned tier, by
the second half of a `read_block` in the file tier.  Then block 1 is resident and
block 2 finds the tier full.  And where the largest id goes, the answer is that
none did. -/
theorem evictionSucceeds_stale :
    (∃ t, (PinnedKvTier.machine 1 1).Reachable t ∧ t.pool.recent = [5, 1] ∧
      t.pool.owner 5 = none ∧ t.pool.owner 1 = some 0 ∧ (t.placeBlockEvicting 2).1.slot = -1) ∧
    (∃ t, (NvmeKvTier.machine ⟨"kv", 1, 1, false⟩).Reachable t ∧ t.pool.recent = [5, 1] ∧
      t.pool.owner 5 = none ∧ t.pool.owner 1 = some 0 ∧ (t.placeBlockEvicting 2).1.slot = -1) ∧
    ∃ t, (PinnedKvTier.machine 1 1).Reachable t ∧ t.pool.owner 4294967295 = some 0 ∧
      (t.placeBlockEvicting 2).1.evictedBlock = -1 ∧ (t.placeBlockEvicting 2).2.pool.owner 4294967295 = none := by
  refine ⟨?_, ?_, ?_⟩
  · exact ⟨_, ⟨_, [.placeBlock 5, .releaseBlock 5, .touch 5, .placeBlock 1], rfl, rfl⟩,
      by decide, by decide, by decide, by decide⟩
  · exact ⟨_, ⟨_, [.writeBlock 5, .readBlock 5, .releaseBlock 5, .touch 5, .placeBlock 1], rfl, rfl⟩,
      by decide, by decide, by decide, by decide⟩
  · exact ⟨_, ⟨_, [.placeBlock 4294967295], rfl, rfl⟩, by decide, by decide, by decide⟩

end Qw3.Tier
