import Qw3.Lib.Machine
import Qw3.Tier.Slots

/-!
# Placements and late releases

A release that was decided on before may come after its block was evicted,
released or placed again.  The run is kept with a journal: the step that made
each placement, and the placement that each captured allocation was read from.

* `NvmeKvTier.Journal` — the journal; `Journal.placement` — the placement a block
  is mapped by now.
* `NvmeKvTier.Lives` — what a step does to the blocks that have a slot after it.
* `NvmeKvTier.nvmeSlotOwnership` — every slot has one place, and a late release
  frees only the placement that it was captured from.
-/

namespace Qw3.Tier.NvmeKvTier

/-- The steps of a tier, in any order. -/
def machine (c : NvmeKvTierConfig) : Machine NvmeKvTier Action where
  init t := t = initial c
  step t a := some (t.step a)

/-- What a run has placed and captured.  Its steps are numbered. -/
structure Journal where
  clock : ℕ
  /-- The step that a block last got a slot in. -/
  placedAt : ℕ → ℕ
  /-- The captured allocations, each with its placement. -/
  captured : List (NvmeAllocation × Option ℕ)

/-- The journal of no steps. -/
def Journal.empty : Journal := ⟨0, fun _ => 0, []⟩

/-- The placement that maps a block. -/
def Journal.placement (j : Journal) (t : NvmeKvTier) (b : ℕ) : Option ℕ :=
  if t.pool.owner b = none then none else some (j.placedAt b)

/-- The journal after a step. -/
def record (t : NvmeKvTier) (a : Action) (u : NvmeKvTier) (j : Journal) : Journal where
  clock := j.clock + 1
  placedAt b := if t.pool.owner b = none ∧ u.pool.owner b ≠ none then j.clock else j.placedAt b
  captured :=
    match a with
    | .allocation b => (t.allocation b, j.placement t b) :: j.captured
    | .tryAllocation b locked =>
        match t.tryAllocation b locked with
        | some out => (out, j.placement t b) :: j.captured
        | none => j.captured
    | _ => j.captured

/-- A tier with its journal. -/
def journaled (c : NvmeKvTierConfig) : Machine (NvmeKvTier × Journal) Action :=
  (machine c).withHistory .empty record

/-! ## One step -/

/-- After a step every block that has a slot has kept it, with its generation,
or is the one block that was placed, under a new generation. -/
structure Lives (t u : NvmeKvTier) (fresh : Option ℕ) : Prop where
  sequence_le : t.allocationSequence ≤ u.allocationSequence
  live : ∀ b slot, u.pool.owner b = some slot →
    (fresh = some b ∧ t.pool.owner b = none ∧ t.allocationSequence < u.allocationSequence ∧
      u.slotGenerations slot = u.allocationSequence) ∨
    (t.pool.owner b = some slot ∧ u.slotGenerations slot = t.slotGenerations slot)

theorem Lives.of_quiet {t u : NvmeKvTier} (hseq : u.allocationSequence = t.allocationSequence)
    (hgen : u.slotGenerations = t.slotGenerations)
    (hlive : ∀ b slot, u.pool.owner b = some slot → t.pool.owner b = some slot) :
    Lives t u none where
  sequence_le := hseq.ge
  live b slot hb := .inr ⟨hlive b slot hb, by rw [hgen]⟩

/-- A placement in a slot that no other block has afterwards. -/
theorem Lives.of_placed {t : NvmeKvTier} {pool : SlotPool ℕ ℤ} {b : ℕ} {slot : ℤ}
    (hb : t.pool.owner b = none) (hslot : pool.owner b = some slot)
    (hlive : ∀ c s, c ≠ b → pool.owner c = some s → t.pool.owner c = some s ∧ s ≠ slot) :
    Lives t (t.placed pool slot) (some b) where
  sequence_le := Nat.le_succ _
  live c s hc := by
    rcases eq_or_ne c b with rfl | hne
    · obtain rfl : slot = s := Option.some.inj (hslot.symm.trans hc)
      exact .inl ⟨rfl, hb, Nat.lt_succ_self _, Function.update_self ..⟩
    · obtain ⟨hown, hs⟩ := hlive c s hne hc
      exact .inr ⟨hown, Function.update_of_ne hs ..⟩

theorem lives_moves {t u : NvmeKvTier} {slots : List ℤ} (hp : t.pool.Partition slots)
    (hm : Moves t u) : ∃ fresh, Lives t u fresh := by
  cases hm with
  | refl => exact ⟨none, .of_quiet rfl rfl fun _ _ hb => hb⟩
  | touched b _ => exact ⟨none, .of_quiet rfl rfl fun _ _ hb => hb⟩
  | dropped victim rest _ _ => exact ⟨none, .of_quiet rfl rfl fun _ _ hb => hb⟩
  | cleared =>
      refine ⟨none, .of_quiet rfl rfl ?_⟩
      intro b slot hb
      cases hb
  | released b =>
      refine ⟨none, .of_quiet rfl rfl ?_⟩
      intro c slot hc
      have hc : (t.pool.release b).owner c = some slot := hc
      rw [SlotPool.release_owner, SlotPool.update_none_eq_some] at hc
      exact hc.2
  | taken b slot pool hb ht =>
      obtain ⟨hfree, howner, -⟩ := SlotPool.take_eq_some ht
      refine ⟨some b, .of_placed hb (by rw [howner, Function.update_self]) ?_⟩
      intro c s hne hc
      rw [howner, Function.update_of_ne hne] at hc
      refine ⟨hc, ?_⟩
      -- The slot was free, so no block had it.
      rintro rfl
      exact hp.apart hc (hfree ▸ List.mem_cons_self)
  | replaced victim b slot hb hv =>
      refine ⟨some b, .of_placed hb (by rw [SlotPool.replace_owner, Function.update_self]) ?_⟩
      intro c s hne hc
      rw [SlotPool.replace_owner, Function.update_of_ne hne, SlotPool.update_none_eq_some] at hc
      refine ⟨hc.2, ?_⟩
      rintro rfl
      exact hc.1 (hp.unique hc.2 hv)

theorem Slotted.lives {t : NvmeKvTier} (h : Slotted t) (a : Action) :
    ∃ fresh, Lives t (t.step a) fresh := by
  rcases h.indexed.step_moves a with ⟨b, -, hstep⟩ | hm
  · rw [hstep]
    exact ⟨none, .of_quiet rfl rfl fun _ _ hb => hb⟩
  · exact lives_moves h.partition hm

/-! ## The invariant -/

/-- The generation of a captured allocation is that of the slot of its block
exactly while its placement maps the block. -/
def Captures (t : NvmeKvTier) (j : Journal) (a : NvmeAllocation) (p : Option ℕ) : Prop :=
  (p = none ∧ a.slot < 0) ∨
  ∃ k, p = some k ∧ k < j.clock ∧ a.generation ≤ t.allocationSequence ∧
    ∀ slot, t.pool.owner a.blockId = some slot →
      (t.slotGenerations slot = a.generation ↔ j.placedAt a.blockId = k) ∧
      (j.placedAt a.blockId = k → slot = a.slot ∧ 0 ≤ a.slot)

/-- A tier and the journal of its run. -/
structure Owned (q : NvmeKvTier × Journal) : Prop where
  slotted : Slotted q.1
  generation_le : ∀ {b slot}, q.1.pool.owner b = some slot →
    q.1.slotGenerations slot ≤ q.1.allocationSequence
  distinct : ∀ {b c slot other}, q.1.pool.owner b = some slot → q.1.pool.owner c = some other →
    q.1.slotGenerations slot = q.1.slotGenerations other → b = c
  placed_lt : ∀ {b}, q.1.pool.owner b ≠ none → q.2.placedAt b < q.2.clock
  captured : ∀ {a p}, (a, p) ∈ q.2.captured → Captures q.1 q.2 a p

theorem Owned.initial {c : NvmeKvTierConfig} (h : c.Slotted) : Owned (initial c, .empty) where
  slotted := .initial h
  generation_le hb := by cases hb
  distinct hb := by cases hb
  placed_lt hb := absurd rfl hb
  captured ha := by cases ha

section Step

variable {t u : NvmeKvTier} {j : Journal} {a : Action} {fresh : Option ℕ}

/-- An allocation that is read off the tier names the placement of its block. -/
theorem Owned.captures_allocation (h : Owned (t, j)) (b : ℕ) :
    Captures t j (t.allocation b) (j.placement t b) := by
  unfold allocation Journal.placement
  cases hb : t.pool.owner b with
  | none => exact .inl ⟨rfl, Int.negSucc_lt_zero 0⟩
  | some slot =>
      refine .inr ⟨j.placedAt b, rfl, h.placed_lt (by simp [hb]), h.generation_le hb, ?_⟩
      intro other ho
      obtain rfl : slot = other := Option.some.inj (hb.symm.trans ho)
      exact ⟨⟨fun _ => rfl, fun _ => rfl⟩, fun _ => ⟨rfl, (h.slotted.owned hb).1⟩⟩

/-- A capture stays one: a block that is placed again gets a new generation in a
new step. -/
theorem Lives.captures (hl : Lives t u fresh) {x : NvmeAllocation} {p : Option ℕ}
    (h : Captures t j x p) : Captures u (record t a u j) x p := by
  rcases h with h | ⟨k, rfl, hk, hgen, h⟩
  · exact .inl h
  · refine .inr ⟨k, rfl, Nat.lt_succ_of_lt hk, hgen.trans hl.sequence_le, ?_⟩
    intro slot hslot
    rcases hl.live _ _ hslot with ⟨-, hnone, hlt, hfresh⟩ | ⟨hown, hsame⟩
    · have hat : (record t a u j).placedAt x.blockId = j.clock := if_pos ⟨hnone, by simp [hslot]⟩
      rw [hfresh, hat]
      constructor
      · constructor
        · intro heq
          omega
        · intro heq
          omega
      · intro heq
        omega
    · have hat : (record t a u j).placedAt x.blockId = j.placedAt x.blockId :=
        if_neg (by simp [hown])
      rw [hsame, hat]
      exact h slot hown

theorem Owned.captured_record (h : Owned (t, j)) (hl : Lives t u fresh) {x : NvmeAllocation}
    {p : Option ℕ} (hx : (x, p) ∈ (record t a u j).captured) :
    Captures u (record t a u j) x p := by
  apply hl.captures
  -- What was captured before, or what this step reads off the tier.
  have hread : ∀ b, (x, p) ∈ (t.allocation b, j.placement t b) :: j.captured →
      Captures t j x p := by
    intro b hx
    rcases List.mem_cons.mp hx with heq | hx
    · obtain ⟨rfl, rfl⟩ := Prod.mk.inj heq
      exact h.captures_allocation b
    · exact h.captured hx
  cases a with
  | allocation b => exact hread b hx
  | tryAllocation b locked =>
      cases locked with
      | false => exact h.captured hx
      | true => exact hread b hx
  | _ => exact h.captured hx

theorem Owned.step (h : Owned (t, j)) (a : Action) : Owned (t.step a, record t a (t.step a) j) := by
  obtain ⟨fresh, hl⟩ := h.slotted.lives a
  constructor
  · exact h.slotted.step a
  · intro b slot hb
    rcases hl.live b slot hb with ⟨-, -, -, hgen⟩ | ⟨hown, hgen⟩
    · exact hgen.le
    · exact hgen.trans_le ((h.generation_le hown).trans hl.sequence_le)
  · intro b c slot other hb hc heq
    rcases hl.live b slot hb with ⟨hfb, -, hlt, hgb⟩ | ⟨hob, hgb⟩ <;>
      rcases hl.live c other hc with ⟨hfc, -, hlt', hgc⟩ | ⟨hoc, hgc⟩
    · exact Option.some.inj (hfb.symm.trans hfc)
    · -- The new generation is past every older one.
      have hle : t.slotGenerations other ≤ t.allocationSequence := h.generation_le hoc
      have hlt : t.allocationSequence < (t.step a).allocationSequence := hlt
      have hnew : (t.step a).allocationSequence = t.slotGenerations other :=
        hgb.symm.trans (heq.trans hgc)
      omega
    · have hle : t.slotGenerations slot ≤ t.allocationSequence := h.generation_le hob
      have hlt' : t.allocationSequence < (t.step a).allocationSequence := hlt'
      have hnew : t.slotGenerations slot = (t.step a).allocationSequence :=
        hgb.symm.trans (heq.trans hgc)
      omega
    · exact h.distinct hob hoc (hgb.symm.trans (heq.trans hgc))
  · intro b hb
    show (if _ then _ else _) < j.clock + 1
    split_ifs with hnew
    · exact Nat.lt_succ_self _
    · apply Nat.lt_succ_of_lt
      apply h.placed_lt
      intro hnone
      exact hnew ⟨hnone, hb⟩
  · intro x p hx
    exact h.captured_record hl hx

end Step

theorem owned_invariant {c : NvmeKvTierConfig} (h : c.Slotted) : (journaled c).Invariant fun q =>
    Owned q ∧ q.1.slotCount = slotCountOf c.totalBytes c.slotBytes where
  init q hq := by
    obtain ⟨t, j⟩ := q
    obtain ⟨rfl, rfl⟩ : t = initial c ∧ j = .empty := hq
    exact ⟨.initial h, rfl⟩
  step q a r hq hr := by
    obtain ⟨t, ht, rfl⟩ := Machine.withHistory_step.mp hr
    obtain rfl : q.1.step a = t := Option.some.inj ht
    exact ⟨hq.1.step a, (hq.1.slotted.slotCount_step a).trans hq.2⟩

/-- A late release frees the slot exactly where the placement that it was
captured from maps its block. -/
theorem Owned.tryReleaseAllocation {t : NvmeKvTier} {j : Journal} (h : Owned (t, j))
    {a : NvmeAllocation} {p : Option ℕ} (ha : (a, p) ∈ j.captured)
    (hne : (t.tryReleaseAllocation a true).2 ≠ t) : p ≠ none ∧ j.placement t a.blockId = p := by
  unfold NvmeKvTier.tryReleaseAllocation at hne
  rw [if_neg (by simp)] at hne
  split_ifs at hne with hskip hother
  · exact absurd rfl hne
  · exact absurd rfl hne
  · obtain ⟨hown, hgen⟩ := not_or.mp hother
    have hown := not_not.mp hown
    have hgen := not_not.mp hgen
    rcases h.captured ha with ⟨-, hslot⟩ | ⟨k, rfl, -, -, hk⟩
    · exact absurd (.inr hslot) hskip
    · have hat : j.placedAt a.blockId = k := (hk a.slot hown).1.mp hgen
      refine ⟨Option.some_ne_none k, ?_⟩
      show (if _ then _ else _) = _
      rw [if_neg (by simp [hown]), hat]

/-- For every run of a tier that has its file, is not direct-mapped and numbers
its slots within `int32_t`: the free list and the owned slots are the slots of
the tier, each once; the generations of live allocations differ; and a late
release changes the tier only where the placement that its allocation was
captured from still maps the block. -/
theorem nvmeSlotOwnership (c : NvmeKvTierConfig) (hc : c.Slotted) (t : NvmeKvTier) (j : Journal)
    (h : (journaled c).Reachable (t, j)) :
    (∀ slot, (0 ≤ slot ∧ slot < (slotCountOf c.totalBytes c.slotBytes : ℤ)) ↔
      slot ∈ t.pool.free ∨ ∃ b, t.pool.owner b = some slot) ∧
    t.pool.free.Nodup ∧
    (∀ b slot, t.pool.owner b = some slot → slot ∉ t.pool.free) ∧
    (∀ b b' slot, t.pool.owner b = some slot → t.pool.owner b' = some slot → b = b') ∧
    (∀ b b' slot slot', t.pool.owner b = some slot → t.pool.owner b' = some slot' → b ≠ b' →
      t.slotGenerations slot ≠ t.slotGenerations slot') ∧
    (∀ a p, (a, p) ∈ j.captured → ∀ locked, (t.tryReleaseAllocation a locked).2 ≠ t →
      p ≠ none ∧ j.placement t a.blockId = p) := by
  obtain ⟨howned, hcount⟩ := (owned_invariant hc).reachable h
  have hp := howned.slotted.partition
  refine ⟨?_, hp.nodup, fun _ _ => hp.apart, fun _ _ _ => hp.unique, ?_, ?_⟩
  · intro slot
    rw [← hp.mem_iff, mem_freshSlots howned.slotted.count_le, ← hcount]
  · intro b b' slot slot' hb hb' hne heq
    exact hne (howned.distinct hb hb' heq)
  · intro a p ha locked hne
    cases locked with
    | false => exact absurd rfl hne
    | true => exact howned.tryReleaseAllocation ha hne

/-- A block is placed, captured, released and placed again: its old allocation
releases nothing. -/
theorem nvmeSlotOwnership_replaced : ∃ t j,
    (journaled ⟨"kv", 2, 1, false⟩).Reachable (t, j) ∧
      (⟨7, 0, 1⟩, some 0) ∈ j.captured ∧ j.placement t 7 = some 3 ∧
      (t.tryReleaseAllocation ⟨7, 0, 1⟩ true).2 = t := by
  have hrun : ((journaled ⟨"kv", 2, 1, false⟩).run (initial ⟨"kv", 2, 1, false⟩, .empty)
      [.placeBlock 7, .allocation 7, .releaseBlock 7, .placeBlockEvicting 7]).any
        (fun q => decide ((⟨7, 0, 1⟩, some 0) ∈ q.2.captured ∧ q.2.placement q.1 7 = some 3)) =
      true := by decide
  have hinit : (journaled ⟨"kv", 2, 1, false⟩).init (initial ⟨"kv", 2, 1, false⟩, .empty) :=
    ⟨rfl, rfl⟩
  obtain ⟨⟨t, j⟩, hreach, hcheck⟩ := Machine.exists_reachable hinit hrun
  obtain ⟨hmem, hat⟩ := of_decide_eq_true hcheck
  refine ⟨t, j, hreach, hmem, hat, ?_⟩
  by_contra hne
  have hslotted : NvmeKvTierConfig.Slotted ⟨"kv", 2, 1, false⟩ := by
    refine ⟨rfl, ?_, ?_⟩ <;> decide
  obtain ⟨-, -, -, -, -, hlate⟩ := nvmeSlotOwnership _ hslotted t j hreach
  have hp := (hlate _ _ hmem true hne).2
  dsimp only at hat hp
  rw [hat] at hp
  cases hp

/-- Slots that are nobody's: those of a tier without a directory, and, past
`2 ^ 31` of them, those whose number turned negative. -/
theorem nvmeSlotOwnership_lost :
    (∃ t, (machine ⟨"", 1, 1, false⟩).Reachable t ∧ t.slotCount = 1 ∧
      ¬ ((0 : ℤ) ∈ t.pool.free ∨ ∃ b, t.pool.owner b = some 0)) ∧
    (∃ t, (machine ⟨"kv", 2 ^ 31 + 1, 1, false⟩).Reachable t ∧ t.slotCount = 2 ^ 31 + 1 ∧
      ¬ ((2 ^ 31 : ℤ) ∈ t.pool.free ∨ ∃ b, t.pool.owner b = some (2 ^ 31))) := by
  constructor
  · refine ⟨initial ⟨"", 1, 1, false⟩, .of_init rfl, by decide, ?_⟩
    rintro (hfree | ⟨b, hb⟩)
    · exact absurd hfree (by decide)
    · cases hb
  · refine ⟨initial ⟨"kv", 2 ^ 31 + 1, 1, false⟩, .of_init rfl, ?_, ?_⟩
    · norm_num [initial, slotCountOf]
    · rintro (hfree | ⟨b, hb⟩)
      · have hfree : (2 ^ 31 : ℤ) ∈ freshSlots (2 ^ 31 + 1) := by
          simpa [initial, slotCountOf, SlotPool.initial] using hfree
        obtain ⟨i, -, hi⟩ := List.mem_map.mp hfree
        have hlt : toInt32 i < 2 ^ 31 := Int.bmod_lt (by norm_num)
        exact absurd hi hlt.ne
      · cases hb

end Qw3.Tier.NvmeKvTier
