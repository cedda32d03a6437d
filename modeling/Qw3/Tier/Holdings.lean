import Qw3.Tier.Ownership

/-!
# What a tier holds

A tier that need not number its slots within `int32_t`: its steps are followed as
long as no placement takes a slot outside the bounds of `slot_generations_`,
where the code has no behaviour.

* `NvmeKvTier.Holds` — an allocation that is still the tier's.
* `NvmeKvTier.Sound` — the invariant of such a tier; `Sound.step`.
* `NvmeKvTier.Lives.holds` — what a step does to what the tier holds.
-/

namespace Qw3.Tier.NvmeKvTier

/-- The allocation is the one that its block has now. -/
def Holds (t : NvmeKvTier) (x : NvmeAllocation) : Prop :=
  0 ≤ x.slot ∧ t.pool.owner x.blockId = some x.slot ∧ t.slotGenerations x.slot = x.generation

instance (t : NvmeKvTier) (x : NvmeAllocation) : Decidable (t.Holds x) :=
  inferInstanceAs (Decidable (_ ∧ _ ∧ _))

/-- The block that a step may place. -/
def Action.places : Action → Option ℕ
  | .placeBlock b | .placeBlockEvicting b | .writeBlock b => some b
  | _ => none

/-- The slot that is taken next is an index of `slot_generations_`. -/
def NextIndexed (t : NvmeKvTier) : Prop := t.pool.free.head?.all (fun slot => decide (0 ≤ slot)) = true

/-- A step that does not index `slot_generations_` outside its bounds. -/
def Action.Defined (t : NvmeKvTier) (a : Action) : Prop := a.places = none ∨ t.NextIndexed

instance (t : NvmeKvTier) (a : Action) : Decidable (a.Defined t) :=
  inferInstanceAs (Decidable (_ ∨ _ = true))

/-! ## Who is placed -/

section Places

variable {t : NvmeKvTier} {b c : ℕ}

theorem owner_placeBlock_of_ne (hne : b ≠ c) :
    (t.placeBlock c).2.pool.owner b = t.pool.owner b := by
  unfold placeBlock
  split_ifs
  · rfl
  · exact Function.update_of_ne hne ..
  · split
    · unfold touchLocked
      split_ifs
      rfl
    · split
      · rfl
      · next slot pool htake =>
          show pool.owner b = t.pool.owner b
          rw [(SlotPool.take_eq_some htake).2.1, Function.update_of_ne hne]

theorem owner_placeBlockEvicting_of_ne (hne : b ≠ c) (hb : t.pool.owner b = none) :
    (t.placeBlockEvicting c).2.pool.owner b = none := by
  have hplace : (t.placeBlock c).2.pool.owner b = none := by
    rw [owner_placeBlock_of_ne hne, hb]
  unfold placeBlockEvicting
  dsimp only
  split_ifs
  · exact hplace
  · split
    · exact hplace
    · next victim rest hrecent =>
        split
        · exact hplace
        · show (SlotPool.replace _ _ _ _).owner b = none
          rw [SlotPool.replace_owner, Function.update_of_ne hne, Function.update_apply, hplace,
            ite_self]

theorem owner_unmapped_of_none (hb : t.pool.owner b = none) :
    (t.unmapped c).pool.owner b = none := by
  have hupdate : Function.update t.pool.owner c none b = none := by
    rw [Function.update_apply, hb, ite_self]
  unfold unmapped
  split_ifs
  · exact hupdate
  · show (t.pool.release c).owner b = none
    rw [SlotPool.release_owner, hupdate]

/-- A block that has a slot after a step and had none is the one that the step
places. -/
theorem places_of_owner {a : Action} (hb : t.pool.owner b = none)
    (hnew : (t.step a).pool.owner b ≠ none) : a.places = some b := by
  by_contra hne
  apply hnew
  cases a with
  | placeBlock c =>
      have hne : b ≠ c := fun heq => hne (heq ▸ rfl)
      exact (owner_placeBlock_of_ne hne).trans hb
  | writeBlock c =>
      have hne : b ≠ c := fun heq => hne (heq ▸ rfl)
      exact (owner_placeBlock_of_ne hne).trans hb
  | placeBlockEvicting c =>
      have hne : b ≠ c := fun heq => hne (heq ▸ rfl)
      exact owner_placeBlockEvicting_of_ne hne hb
  | releaseBlock c =>
      show (if _ then _ else _ : NvmeKvTier).pool.owner b = none
      split_ifs
      · exact owner_unmapped_of_none hb
      · exact hb
  | tryReleaseAllocation x locked =>
      show (t.tryReleaseAllocation x locked).2.pool.owner b = none
      unfold tryReleaseAllocation
      split_ifs
      · exact hb
      · exact hb
      · exact hb
      · exact owner_unmapped_of_none hb
  | touch c =>
      show (if _ then _ else _ : NvmeKvTier).pool.owner b = none
      split_ifs
      · exact hb
      · exact hb
  | clear => rfl
  | readBlock c => exact hb
  | allocation c => exact hb
  | tryAllocation c locked => exact hb

end Places

/-! ## The invariant -/

/-- A tier with a free list: no slot has two places, and no generation is newer
than their sequence. -/
structure Sound (t : NvmeKvTier) : Prop where
  indirect : t.directMapped = false
  count_le : t.slotCount ≤ 2 ^ 32
  partition : ∃ slots, t.pool.Partition slots
  owned : ∀ {b slot}, t.pool.owner b = some slot → 0 ≤ slot
  generation_le : ∀ {b slot}, t.pool.owner b = some slot →
    t.slotGenerations slot ≤ t.allocationSequence

theorem slotCountOf_le (total slot : ℕ) : slotCountOf total slot ≤ 2 ^ 32 := by
  unfold slotCountOf
  split_ifs
  · exact (Nat.mod_lt _ (by norm_num)).le
  · exact Nat.zero_le _

theorem Sound.initial {c : NvmeKvTierConfig} (h : c.directMapped = false) : Sound (initial c) where
  indirect := h
  count_le := slotCountOf_le ..
  partition := by
    refine ⟨_, .initial ?_⟩
    split_ifs
    · exact List.nodup_nil
    · exact freshSlots_nodup (slotCountOf_le ..)
  owned hb := by cases hb
  generation_le hb := by cases hb

section Sound

variable {t : NvmeKvTier} {a : Action} (h : Sound t)
include h

theorem Sound.indexed (hnext : t.NextIndexed) : Indexed t where
  indirect := h.indirect
  owned := h.owned
  next hslot := by
    unfold NextIndexed at hnext
    rw [hslot] at hnext
    exact of_decide_eq_true hnext

theorem Sound.step_moves (hdef : a.Defined t) :
    (∃ b, a = .touch b ∧ t.step a = t.withPool (t.pool.touch b)) ∨ Moves t (t.step a) := by
  apply NvmeKvTier.step_moves h.indirect
  intro b heq
  rcases hdef with hno | hnext
  · rw [heq] at hno
    cases hno
  · exact h.indexed hnext

/-- Only the block that a step places gets a new slot. -/
theorem Sound.lives (hdef : a.Defined t) : Lives t (t.step a) a.places := by
  obtain ⟨slots, hp⟩ := h.partition
  obtain ⟨fresh, hl⟩ : ∃ fresh, Lives t (t.step a) fresh := by
    rcases h.step_moves hdef with ⟨b, -, hstep⟩ | hm
    · rw [hstep]
      exact ⟨none, .of_quiet rfl rfl fun _ _ hb => hb⟩
    · exact lives_moves hp hm
  refine ⟨hl.sequence_le, ?_⟩
  intro b slot hb
  rcases hl.live b slot hb with ⟨-, hnone, hlt, hgen⟩ | hkept
  · have hplaces := places_of_owner hnone (by rw [hb]; exact Option.some_ne_none slot)
    exact .inl ⟨hplaces, hnone, hlt, hgen⟩
  · exact .inr hkept

/-- The slot of a new placement. -/
theorem Sound.owned_step (hdef : a.Defined t) {b : ℕ} {slot : ℤ} (hb : t.pool.owner b = none)
    (hnew : (t.step a).pool.owner b = some slot) : 0 ≤ slot := by
  have hplaces := places_of_owner hb (by rw [hnew]; exact Option.some_ne_none slot)
  have hnext : t.NextIndexed := by
    rcases hdef with hno | hnext
    · rw [hplaces] at hno
      cases hno
    · exact hnext
  rcases h.step_moves hdef with ⟨c, rfl, -⟩ | hm
  · cases hplaces
  · generalize t.step a = u at hm hnew
    cases hm with
    | refl => rw [hb] at hnew; cases hnew
    | touched c _ => exact absurd (hb.symm.trans hnew) (Option.some_ne_none _).symm
    | dropped victim rest _ _ => exact absurd (hb.symm.trans hnew) (Option.some_ne_none _).symm
    | cleared => cases hnew
    | released c =>
        have hnew : (t.pool.release c).owner b = some slot := hnew
        rw [SlotPool.release_owner, SlotPool.update_none_eq_some, hb] at hnew
        cases hnew.2
    | taken c s pool _ htake =>
        obtain ⟨hfree, howner, -⟩ := SlotPool.take_eq_some htake
        have hnew : pool.owner b = some slot := hnew
        rw [howner, SlotPool.update_some_eq_some, hb] at hnew
        obtain ⟨-, rfl⟩ | ⟨-, hnew⟩ := hnew
        · exact (h.indexed hnext).next (by rw [hfree]; rfl)
        · cases hnew
    | replaced victim c s _ hv =>
        have hnew : (t.pool.replace victim c s).owner b = some slot := hnew
        rw [SlotPool.replace_owner, SlotPool.update_some_eq_some, SlotPool.update_none_eq_some,
          hb] at hnew
        obtain ⟨-, rfl⟩ | ⟨-, -, hnew⟩ := hnew
        · exact h.owned hv
        · cases hnew

theorem Sound.step (hdef : a.Defined t) : Sound (t.step a) := by
  have hl := h.lives hdef
  obtain ⟨slots, hp⟩ := h.partition
  have hkept : (t.step a).directMapped = t.directMapped ∧ (t.step a).slotCount = t.slotCount ∧
      ∃ slots, (t.step a).pool.Partition slots := by
    rcases h.step_moves hdef with ⟨b, -, hstep⟩ | hm
    · rw [hstep]
      exact ⟨rfl, rfl, slots, hp.touch b⟩
    · generalize t.step a = u at hm
      cases hm with
      | refl => exact ⟨rfl, rfl, slots, hp⟩
      | touched b _ => exact ⟨rfl, rfl, slots, hp.touch b⟩
      | taken b slot pool hb ht => exact ⟨rfl, rfl, slots, hp.take hb ht⟩
      | replaced victim b slot hb hv => exact ⟨rfl, rfl, slots, hp.replace hb hv⟩
      | dropped victim rest _ _ => exact ⟨rfl, rfl, slots, hp.congr rfl rfl⟩
      | released b => exact ⟨rfl, rfl, slots, hp.release b⟩
      | cleared => exact ⟨rfl, rfl, _, .initial (freshSlots_nodup h.count_le)⟩
  obtain ⟨hdirect, hcount, hparts⟩ := hkept
  constructor
  · exact hdirect.trans h.indirect
  · exact hcount.le.trans h.count_le
  · exact hparts
  · intro b slot hb
    rcases hl.live b slot hb with ⟨-, hnone, -, -⟩ | ⟨hown, -⟩
    · exact h.owned_step hdef hnone hb
    · exact h.owned hown
  · intro b slot hb
    rcases hl.live b slot hb with ⟨-, -, -, hgen⟩ | ⟨hown, hgen⟩
    · exact hgen.le
    · exact hgen.trans_le ((h.generation_le hown).trans hl.sequence_le)

/-- What the tier reads off for a block that it holds. -/
theorem Sound.holds_allocation {b : ℕ} (hb : t.pool.owner b ≠ none) : t.Holds (t.allocation b) := by
  obtain ⟨slot, hslot⟩ := Option.ne_none_iff_exists'.mp hb
  have hread : t.allocation b = ⟨b, slot, t.slotGenerations slot⟩ := by simp [allocation, hslot]
  rw [hread]
  exact ⟨h.owned hslot, hslot, rfl⟩

end Sound

/-! ## What is held -/

section Holds

variable {t u : NvmeKvTier} {x y : NvmeAllocation} {fresh : Option ℕ}

theorem blockId_allocation (b : ℕ) : (t.allocation b).blockId = b := by
  unfold allocation
  split <;> rfl

/-- A block has one allocation. -/
theorem Holds.eq (hx : t.Holds x) (hy : t.Holds y) (hid : x.blockId = y.blockId) : x = y := by
  obtain ⟨-, hownx, hgenx⟩ := hx
  obtain ⟨-, howny, hgeny⟩ := hy
  have hslot : x.slot = y.slot := Option.some.inj (hownx.symm.trans (hid ▸ howny))
  have hgen : x.generation = y.generation := hgenx.symm.trans (hslot ▸ hgeny)
  cases x
  cases y
  simp_all

/-- After a step the tier holds what it held, or the allocation of the block that
was placed, under a new generation. -/
theorem Lives.holds (hl : Lives t u fresh) (hx : u.Holds x) :
    t.Holds x ∨ t.allocationSequence < x.generation ∧ fresh = some x.blockId ∧
      t.pool.owner x.blockId = none := by
  obtain ⟨hslot, hown, hgen⟩ := hx
  rcases hl.live _ _ hown with ⟨hfresh, hnone, hlt, hnew⟩ | ⟨hown, hsame⟩
  · refine .inr ⟨?_, hfresh, hnone⟩
    rw [← hgen, hnew]
    exact hlt
  · exact .inl ⟨hslot, hown, hsame.symm.trans hgen⟩

/-- A release that got the lock leaves nothing of its allocation. -/
theorem not_holds_tryReleaseAllocation (hd : t.directMapped = false) {locked : Bool}
    (h : (t.tryReleaseAllocation x locked).1 = true) :
    ¬ (t.tryReleaseAllocation x locked).2.Holds x := by
  unfold tryReleaseAllocation at h ⊢
  split_ifs at h ⊢ with hlock hskip hother
  · rintro ⟨hslot, -⟩
    rcases hskip with hdirect | hneg
    · exact absurd (hd.symm.trans hdirect) Bool.false_ne_true
    · exact absurd hslot (by omega)
  · rintro ⟨-, hown, hgen⟩
    exact hother.elim (fun hne => hne hown) (fun hne => hne hgen)
  · rintro ⟨-, hown, -⟩
    have hown : (t.unmapped x.blockId).pool.owner x.blockId = some x.slot := hown
    rw [unmapped_eq hd] at hown
    have hown : (t.pool.release x.blockId).owner x.blockId = some x.slot := hown
    rw [SlotPool.release_owner, Function.update_self] at hown
    cases hown

/-- A release gives up its own allocation and no other. -/
theorem eq_of_tryReleaseAllocation (hd : t.directMapped = false) {locked : Bool} (hy : t.Holds y)
    (hu : ¬ (t.tryReleaseAllocation x locked).2.Holds y) : y = x := by
  unfold tryReleaseAllocation at hu
  split_ifs at hu with hlock hskip hother
  · exact absurd hy hu
  · exact absurd hy hu
  · exact absurd hy hu
  · obtain ⟨hown, hgen⟩ := not_or.mp hother
    have hx : t.Holds x :=
      ⟨not_lt.mp fun hneg => hskip (.inr hneg), not_not.mp hown, not_not.mp hgen⟩
    refine hy.eq hx ?_
    by_contra hne
    apply hu
    show (t.unmapped x.blockId).Holds y
    rw [unmapped_eq hd]
    refine ⟨hy.1, ?_, hy.2.2⟩
    show (t.pool.release x.blockId).owner y.blockId = some y.slot
    rw [SlotPool.release_owner, Function.update_of_ne hne]
    exact hy.2.1

end Holds

end Qw3.Tier.NvmeKvTier
