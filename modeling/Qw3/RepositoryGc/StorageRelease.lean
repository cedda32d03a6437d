import Qw3.Repository.Concurrent
import Qw3.Tier.Holdings

/-!
# Giving back the storage of a slot

* `Capture`, `Capture.capture`, `Capture.free` — the two halves of the lambda
  `release` of `kvmem_repository_storage_release`; each runs under a try-lock.
* `machine` — the callback and everybody else on the two tiers, interleaved
  between the halves.
* `Ledger` — what each tier held for a slot when the callback first saw its
  generation, and how often each allocation was given up, by the callback and by
  anybody else.
* `storageRelease` — **storage is released exactly once.**
-/

namespace Qw3.RepositoryGc.StorageRelease

open Qw3.Repository (KvMemBlockHandle)
open Qw3.Tier (NvmeKvTier NvmeAllocation NvmeKvTierConfig)

/-- The tiers of `kvmem_repository_storage_release`. -/
inductive Which
  | raw
  | values
  deriving DecidableEq, Repr

/-! ## The callback -/

/-- What `Pending` has for one tier: `raw`, `raw_captured` and `raw_done`, or those
of `values`. -/
structure Capture where
  allocation : NvmeAllocation := { blockId := 0 }
  captured : Bool := false
  done : Bool := false
  deriving DecidableEq

/-- `Pending`. -/
structure Pending where
  generation : ℕ := 0
  capture : Which → Capture := fun _ => {}

/-- The lambda `release` up to the capture. -/
def Capture.capture (c : Capture) (tier : Option NvmeKvTier) (slot : ℕ) (locked : Bool) : Capture :=
  if c.done then c
  else
    match tier with
    | none => { c with done := true }
    | some t =>
        if c.captured then c
        else
          match t.tryAllocation slot locked with
          | none => c
          | some a => { c with allocation := a, captured := true }

/-- The lambda `release` from there on. -/
def Capture.free (c : Capture) (tier : Option NvmeKvTier) (locked : Bool) :
    Capture × Option NvmeKvTier :=
  if c.done ∨ c.captured = false then (c, tier)
  else
    match tier with
    | none => (c, none)
    | some t =>
        let (done, t) := t.tryReleaseAllocation c.allocation locked
        ({ c with done }, some t)

/-! ## The machine -/

/-- A half of a `release`. -/
inductive Half
  | capture
  | free
  deriving DecidableEq, Repr

/-- `release(raw, ..)` and then `release(values, ..)`. -/
def halves : List (Which × Half) :=
  [(.raw, .capture), (.raw, .free), (.values, .capture), (.values, .free)]

/-- The callback's own state, the tiers, and the call that is in progress. -/
structure State where
  tier : Which → Option NvmeKvTier
  pending : ℕ → Pending := fun _ => {}
  /-- The slot that the callback was called for, and what it has still to do. -/
  call : Option (ℕ × List (Which × Half)) := none
  /-- Whether the callback has returned true for the slot's generation. -/
  returned : ℕ → Bool := fun _ => false

namespace State

variable (q : State)

/-- `p.raw_done && p.values_done`. -/
def result (slot : ℕ) : Bool :=
  ((q.pending slot).capture .raw).done && ((q.pending slot).capture .values).done

/-- What the callback has for a tier changes. -/
def setCapture (slot : ℕ) (w : Which) (c : Capture) : State :=
  { q with
    pending := Function.update q.pending slot
      { q.pending slot with capture := Function.update (q.pending slot).capture w c } }

/-- A generation was seen, and the callback has not returned true for it. -/
def Barred (slot : ℕ) : Prop := (q.pending slot).generation ≠ 0 ∧ q.returned slot = false

instance (slot : ℕ) : Decidable (q.Barred slot) := inferInstanceAs (Decidable (_ ∧ _))

/-- The callback is entered: a generation that is new to it starts over. -/
def enter (h : KvMemBlockHandle) : State :=
  if (q.pending h.slot).generation = h.generation then { q with call := some (h.slot, halves) }
  else
    { q with
      pending := Function.update q.pending h.slot { generation := h.generation }
      returned := Function.update q.returned h.slot false
      call := some (h.slot, halves) }

/-- The next half of the call. -/
def advance (slot : ℕ) (w : Which) (rest : List (Which × Half)) (locked : Bool) : Half → State
  | .capture =>
      { q.setCapture slot w (((q.pending slot).capture w).capture (q.tier w) slot locked) with
        call := some (slot, rest) }
  | .free =>
      let (c, tier) := ((q.pending slot).capture w).free (q.tier w) locked
      { q.setCapture slot w c with
        tier := Function.update q.tier w tier
        call := some (slot, rest) }

/-- Somebody else's step on a tier. -/
def act (w : Which) (t : NvmeKvTier) (a : NvmeKvTier.Action) : State :=
  { q with tier := Function.update q.tier w (some (t.step a)) }

end State

/-- A step. -/
inductive Action
  | call (h : KvMemBlockHandle)
  | advance (locked : Bool)
  | leave
  | tier (w : Which) (a : NvmeKvTier.Action)

/-- A new allocation is placed only where its slot is not barred. -/
def Allowed (q : State) (t : NvmeKvTier) (a : NvmeKvTier.Action) : Prop :=
  a.Defined t ∧ ∀ b ∈ a.places, t.pool.owner b = none → ¬ q.Barred b

instance (q : State) (t : NvmeKvTier) (a : NvmeKvTier.Action) : Decidable (Allowed q t a) :=
  inferInstanceAs (Decidable (_ ∧ _))

/-- The callback over `capacity` slots, its generations non-decreasing for each of
them, and the others. -/
def step (capacity : ℕ) (q : State) : Action → Option State
  | .call h =>
      if q.call = none ∧ 0 < h.generation ∧ h.slot < capacity ∧
          (q.pending h.slot).generation ≤ h.generation then
        some (q.enter h)
      else none
  | .advance locked =>
      match q.call with
      | some (slot, (w, half) :: rest) => some (q.advance slot w rest locked half)
      | _ => none
  | .leave =>
      match q.call with
      | some (slot, []) =>
          some { q with
            call := none
            returned := Function.update q.returned slot (q.result slot) }
      | _ => none
  | .tier w a =>
      match q.tier w with
      | some t => if Allowed q t a then some (q.act w t a) else none
      | none => none

/-! ## What was held and given up -/

/-- A tier, where there is one, holds the allocation. -/
def Held (tier : Option NvmeKvTier) (x : NvmeAllocation) : Prop :=
  match tier with
  | none => False
  | some t => t.Holds x

instance (tier : Option NvmeKvTier) (x : NvmeAllocation) : Decidable (Held tier x) :=
  match tier with
  | none => .isFalse id
  | some t => inferInstanceAs (Decidable (t.Holds x))

theorem slot_of_held {tier : Option NvmeKvTier} {x : NvmeAllocation} (h : Held tier x) :
    0 ≤ x.slot := by
  cases tier with
  | none => exact h.elim
  | some t => exact h.1

/-- What is recorded along a run. -/
structure Ledger where
  /-- What a tier held for a slot when the callback first saw its generation. -/
  sight : ℕ → Which → NvmeAllocation := fun slot _ => { blockId := slot }
  /-- How often the callback gave an allocation up. -/
  freed : Which → NvmeAllocation → ℕ := fun _ _ => 0
  /-- How often anybody else did. -/
  lost : Which → NvmeAllocation → ℕ := fun _ _ => 0

/-- What a tier holds for a slot. -/
def look (tier : Option NvmeKvTier) (slot : ℕ) : NvmeAllocation :=
  match tier with
  | none => { blockId := slot }
  | some t => t.allocation slot

/-- One, where an allocation is given up between two states. -/
def ended (q u : State) (w : Which) (x : NvmeAllocation) : ℕ :=
  if Held (q.tier w) x ∧ ¬ Held (u.tier w) x then 1 else 0

/-- The ledger after a step. -/
def record (q : State) (a : Action) (u : State) (L : Ledger) : Ledger where
  sight :=
    match a with
    | .call h =>
        if (q.pending h.slot).generation = h.generation then L.sight
        else Function.update L.sight h.slot fun w => look (q.tier w) h.slot
    | _ => L.sight
  freed w x :=
    match a with
    | .advance _ => L.freed w x + ended q u w x
    | _ => L.freed w x
  lost w x :=
    match a with
    | .tier _ _ => L.lost w x + ended q u w x
    | _ => L.lost w x

/-- The tiers that the callback may be built with: their placements so far were
defined, and they are not direct-mapped. -/
def Usable (t : NvmeKvTier) : Prop :=
  ∃ c : NvmeKvTierConfig, c.directMapped = false ∧
    ((NvmeKvTier.machine c).restrict fun t a => a.Defined t).Reachable t

/-- The runs of the callback and the others, with their ledger. -/
def machine (capacity : ℕ) : Machine (State × Ledger) Action :=
  Machine.withHistory
    { init := fun q => (∀ w t, q.tier w = some t → Usable t) ∧ q = { tier := q.tier }
      step := step capacity }
    {} record

theorem Usable.sound {t : NvmeKvTier} (h : Usable t) : t.Sound := by
  obtain ⟨c, hc, hreach⟩ := h
  have hinv : ((NvmeKvTier.machine c).restrict fun t a => a.Defined t).Invariant
      NvmeKvTier.Sound := by
    constructor
    · rintro t rfl
      exact .initial hc
    · intro t a u ht hu
      obtain ⟨hdef, hu⟩ := Machine.restrict_step.mp hu
      obtain rfl : t.step a = u := Option.some.inj hu
      exact ht.step hdef
  exact hinv.reachable hreach

/-! ## The tiers along a step -/

/-- `allocation_sequence_`. -/
def sequence (tier : Option NvmeKvTier) : ℕ :=
  match tier with
  | none => 0
  | some t => t.allocationSequence

/-- A tier stays in order, and only `fresh` gets a new slot. -/
inductive Drifts (fresh : Option ℕ) : Option NvmeKvTier → Option NvmeKvTier → Prop
  | absent : Drifts fresh none none
  | steps {t u : NvmeKvTier} (ht : t.Sound) (hu : u.Sound) (hl : t.Lives u fresh) :
      Drifts fresh (some t) (some u)

section Drifts

variable {fresh : Option ℕ} {t u : Option NvmeKvTier} {x : NvmeAllocation}

theorem Drifts.refl (h : ∀ v, t = some v → v.Sound) : Drifts none t t := by
  cases t with
  | none => exact .absent
  | some v => exact .steps (h v rfl) (h v rfl) (.of_quiet rfl rfl fun _ _ hb => hb)

theorem Drifts.sequence_le (h : Drifts fresh t u) : sequence t ≤ sequence u := by
  cases h with
  | absent => exact le_rfl
  | steps _ _ hl => exact hl.sequence_le

theorem Drifts.sound (h : Drifts fresh t u) {v : NvmeKvTier} (hv : u = some v) : v.Sound := by
  cases h with
  | absent => cases hv
  | steps _ hu _ => exact Option.some.inj hv ▸ hu

/-- What is held is no newer than the sequence. -/
theorem Drifts.generation_le (h : Drifts fresh t u) (hx : Held t x) :
    x.generation ≤ sequence t := by
  cases h with
  | absent => exact hx.elim
  | steps ht _ _ =>
      obtain ⟨-, hown, hgen⟩ := hx
      exact hgen ▸ ht.generation_le hown

/-- What is held after a step was held before it, or is new. -/
theorem Drifts.held (h : Drifts fresh t u) (hx : Held u x) :
    Held t x ∨ sequence t < x.generation := by
  cases h with
  | absent => exact hx.elim
  | steps _ _ hl =>
      rcases hl.holds hx with hold | ⟨hlt, -⟩
      · exact .inl hold
      · exact .inr hlt

/-- A slot that is not fresh keeps its allocation as long as it keeps a slot. -/
theorem Drifts.stays (h : Drifts fresh t u) (hx : Held t x) {v : NvmeKvTier} (hv : u = some v)
    (hown : v.pool.owner x.blockId ≠ none) : Held u x := by
  cases h with
  | absent => exact hx.elim
  | @steps t u _ _ hl =>
      obtain rfl : u = v := Option.some.inj hv
      obtain ⟨hslot, hx, hgen⟩ := hx
      obtain ⟨slot, hnow⟩ := Option.ne_none_iff_exists'.mp hown
      rcases hl.live _ _ hnow with ⟨-, hnone, -⟩ | ⟨hold, hsame⟩
      · exact absurd (hx.symm.trans hnone) (Option.some_ne_none _)
      · obtain rfl : slot = x.slot := Option.some.inj (hold.symm.trans hx)
        exact ⟨hslot, hnow, hsame.trans hgen⟩

/-- A slot that is not fresh had one. -/
theorem Drifts.had (h : Drifts fresh t u) {v : NvmeKvTier} (hv : u = some v) {b : ℕ}
    (hb : fresh ≠ some b) (hown : v.pool.owner b ≠ none) :
    ∃ v', t = some v' ∧ v'.pool.owner b ≠ none := by
  cases h with
  | absent => cases hv
  | @steps t u _ _ hl =>
      obtain rfl : u = v := Option.some.inj hv
      obtain ⟨slot, hnow⟩ := Option.ne_none_iff_exists'.mp hown
      rcases hl.live _ _ hnow with ⟨hfresh, -⟩ | ⟨hold, -⟩
      · exact absurd hfresh hb
      · exact ⟨t, rfl, by rw [hold]; exact Option.some_ne_none slot⟩

end Drifts

/-! ## The two halves -/

section Halves

variable {c : Capture} {tier : Option NvmeKvTier} {slot : ℕ} {locked : Bool}

theorem Capture.capture_of_done (h : c.done = true) : c.capture tier slot locked = c := by
  unfold Capture.capture
  rw [if_pos h]

/-- The first half reads the tier, at most once. -/
theorem Capture.captured_capture (h : (c.capture tier slot locked).captured = true) :
    c.captured = true ∧ (c.capture tier slot locked).allocation = c.allocation ∨
    c.done = false ∧ ∃ t, tier = some t ∧
      (c.capture tier slot locked).allocation = t.allocation slot := by
  unfold Capture.capture at h ⊢
  cases tier with
  | none =>
      left
      dsimp only at h ⊢
      split_ifs at h ⊢
      · exact ⟨h, rfl⟩
      · exact ⟨h, rfl⟩
  | some t =>
      dsimp only at h ⊢
      split_ifs at h ⊢ with hdone hcaptured
      · exact .inl ⟨h, rfl⟩
      · exact .inl ⟨h, rfl⟩
      · unfold NvmeKvTier.tryAllocation at h ⊢
        cases locked with
        | false => exact .inl ⟨h, rfl⟩
        | true => exact .inr ⟨Bool.not_eq_true _ ▸ hdone, t, rfl, rfl⟩

theorem Capture.done_capture (h : (c.capture tier slot locked).done = true) :
    c.done = true ∨ tier = none := by
  unfold Capture.capture at h
  cases tier with
  | none => exact .inr rfl
  | some t =>
      left
      dsimp only at h
      split_ifs at h with hdone hcaptured
      · exact h
      · exact h
      · unfold NvmeKvTier.tryAllocation at h
        cases locked with
        | false => exact h
        | true => exact h

/-- What the second half leaves alone. -/
theorem Capture.free_kept : (c.free tier locked).1.captured = c.captured ∧
    (c.free tier locked).1.allocation = c.allocation := by
  unfold Capture.free
  split_ifs
  · exact ⟨rfl, rfl⟩
  · cases tier with
    | none => exact ⟨rfl, rfl⟩
    | some t => exact ⟨rfl, rfl⟩

theorem Capture.free_of_done (h : c.done = true) : c.free tier locked = (c, tier) := by
  unfold Capture.free
  rw [if_pos (.inl h)]

theorem Capture.free_drifts (h : ∀ t, tier = some t → t.Sound) :
    Drifts none tier (c.free tier locked).2 := by
  unfold Capture.free
  split_ifs
  · exact .refl h
  · cases tier with
    | none => exact .absent
    | some t =>
        have ht := h t rfl
        have hdef : (NvmeKvTier.Action.tryReleaseAllocation c.allocation locked).Defined t :=
          .inl rfl
        exact .steps ht (ht.step hdef) (ht.lives hdef)

/-- The second half is done when nothing is left of what was captured. -/
theorem Capture.done_free (h : ∀ t, tier = some t → t.Sound)
    (hdone : (c.free tier locked).1.done = true) :
    c.done = true ∨ c.captured = true ∧ ¬ Held (c.free tier locked).2 c.allocation := by
  unfold Capture.free at hdone ⊢
  split_ifs at hdone ⊢ with hskip
  · exact .inl hdone
  · have hcaptured : c.captured = true := by simpa using fun hno => hskip (.inr hno)
    cases tier with
    | none => exact .inl hdone
    | some t =>
        exact .inr ⟨hcaptured, NvmeKvTier.not_holds_tryReleaseAllocation (h t rfl).indirect hdone⟩

/-- The second half gives up what was captured, and nothing else. -/
theorem Capture.eq_of_free (h : ∀ t, tier = some t → t.Sound) {x : NvmeAllocation}
    (hx : Held tier x) (hu : ¬ Held (c.free tier locked).2 x) :
    c.done = false ∧ c.captured = true ∧ x = c.allocation := by
  unfold Capture.free at hu
  split_ifs at hu with hskip
  · exact absurd hx hu
  · obtain ⟨hdone, hcaptured⟩ := not_or.mp hskip
    cases tier with
    | none => exact hx.elim
    | some t =>
        refine ⟨by simpa using hdone, by simpa using hcaptured, ?_⟩
        exact NvmeKvTier.eq_of_tryReleaseAllocation (h t rfl).indirect hx hu

end Halves

/-! ## The invariant -/

/-- How often an allocation was given up. -/
def Ledger.count (L : Ledger) (w : Which) (x : NvmeAllocation) : ℕ := L.freed w x + L.lost w x

/-- The tiers are in order, and what was given up is not held any more. -/
structure Accounts (q : State) (L : Ledger) : Prop where
  sound : ∀ {w t}, q.tier w = some t → t.Sound
  once : ∀ w x, L.count w x ≤ 1
  held : ∀ {w x}, Held (q.tier w) x → L.count w x = 0
  new : ∀ {w x}, sequence (q.tier w) < x.generation → L.count w x = 0

/-- The callback's state against the ledger. -/
structure Inv (q : State) (L : Ledger) : Prop extends Accounts q L where
  block : ∀ s w, (L.sight s w).blockId = s
  sight : ∀ {s w}, 0 ≤ (L.sight s w).slot → (L.sight s w).generation ≤ sequence (q.tier w) ∧
    (Held (q.tier w) (L.sight s w) ∨ L.count w (L.sight s w) = 1)
  /-- A barred slot has nothing but what it had at first sight. -/
  waiting : ∀ {s w t}, q.Barred s → q.tier w = some t → t.pool.owner s ≠ none →
    Held (q.tier w) (L.sight s w)
  captured : ∀ {s w}, ((q.pending s).capture w).captured = true →
    ((q.pending s).capture w).allocation = L.sight s w ∨
    ((q.pending s).capture w).allocation.slot < 0 ∧ ¬ Held (q.tier w) (L.sight s w)
  done : ∀ {s w}, ((q.pending s).capture w).done = true → ¬ Held (q.tier w) (L.sight s w)
  returned : ∀ {s}, q.returned s = true → q.result s = true
  called : ∀ {s rest}, q.call = some (s, rest) → (q.pending s).generation ≠ 0

section Invariant

variable {q u : State} {L M : Ledger}

theorem ended_of_held {w : Which} {x : NvmeAllocation} (hx : Held (u.tier w) x) :
    ended q u w x = 0 := if_neg fun h => h.2 hx

theorem ended_of_not_held {w : Which} {x : NvmeAllocation} (hx : ¬ Held (q.tier w) x) :
    ended q u w x = 0 := if_neg fun h => hx h.1

theorem Accounts.step {fresh : Which → Option ℕ} (h : Accounts q L) (hd : ∀ w, Drifts (fresh w) (q.tier w) (u.tier w))
    (hcount : ∀ w x, M.count w x = L.count w x + ended q u w x) : Accounts u M where
  sound ht := (hd _).sound ht
  once w x := by
    rw [hcount]
    by_cases hx : Held (q.tier w) x
    · have hone : ended q u w x ≤ 1 := by
        unfold ended
        split_ifs <;> omega
      rw [h.held hx]
      omega
    · rw [ended_of_not_held hx]
      exact h.once w x
  held {w x} hx := by
    rw [hcount, ended_of_held hx]
    rcases (hd w).held hx with hold | hnew
    · exact h.held hold
    · exact h.new hnew
  new {w x} hx := by
    have hlt := (hd w).sequence_le.trans_lt hx
    rw [hcount, h.new hlt, ended_of_not_held]
    intro hheld
    exact absurd ((hd w).generation_le hheld) (by omega)

/-- What was held is held, or was given up once. -/
theorem Accounts.kept (h : Accounts q L)
    (hcount : ∀ w x, M.count w x = L.count w x + ended q u w x) {w : Which} {x : NvmeAllocation}
    (hx : Held (q.tier w) x ∨ L.count w x = 1) : Held (u.tier w) x ∨ M.count w x = 1 := by
  rw [hcount]
  rcases hx with hx | hx
  · by_cases hu : Held (u.tier w) x
    · exact .inl hu
    · right
      rw [h.held hx, ended, if_pos ⟨hx, hu⟩]
  · right
    have hnot : ¬ Held (q.tier w) x := fun hheld => by
      rw [h.held hheld] at hx
      omega
    rw [ended_of_not_held hnot, hx]

/-- What a slot had at first sight does not come back. -/
theorem Inv.unheld (h : Inv q L) {s : ℕ} {w : Which} {fresh : Option ℕ}
    {tier : Option NvmeKvTier} (hd : Drifts fresh (q.tier w) tier)
    (hnot : ¬ Held (q.tier w) (L.sight s w)) : ¬ Held tier (L.sight s w) := by
  intro hx
  rcases hd.held hx with hold | hnew
  · exact hnot hold
  · have hslot := slot_of_held hx
    exact absurd (h.sight hslot).1 (by omega)

/-- A step that takes no first look at a generation. -/
theorem Inv.of_drifts (fresh : Which → Option ℕ) (h : Inv q L)
    (hd : ∀ w, Drifts (fresh w) (q.tier w) (u.tier w))
    (hsight : M.sight = L.sight) (hcount : ∀ w x, M.count w x = L.count w x + ended q u w x)
    (hbar : ∀ s, u.Barred s → q.Barred s ∧ ∀ w, fresh w ≠ some s)
    (hcaptured : ∀ s w, ((u.pending s).capture w).captured = true →
      ((q.pending s).capture w).captured = true ∧
        ((u.pending s).capture w).allocation = ((q.pending s).capture w).allocation ∨
      (((u.pending s).capture w).allocation = L.sight s w ∨
        ((u.pending s).capture w).allocation.slot < 0 ∧ ¬ Held (u.tier w) (L.sight s w)))
    (hdone : ∀ s w, ((u.pending s).capture w).done = true →
      ((q.pending s).capture w).done = true ∨ ¬ Held (u.tier w) (L.sight s w))
    (hreturned : ∀ s, u.returned s = true → u.result s = true)
    (hcalled : ∀ s rest, u.call = some (s, rest) → (u.pending s).generation ≠ 0) : Inv u M where
  toAccounts := h.toAccounts.step hd hcount
  block s w := by rw [hsight]; exact h.block s w
  sight {s w} hslot := by
    rw [hsight] at hslot ⊢
    obtain ⟨hle, hx⟩ := h.sight hslot
    exact ⟨hle.trans (hd w).sequence_le, h.kept hcount hx⟩
  waiting {s w t} hbarred ht hown := by
    rw [hsight]
    obtain ⟨hbarred, hfresh⟩ := hbar s hbarred
    obtain ⟨t', ht', hown'⟩ := (hd w).had ht (hfresh w) hown
    refine (hd w).stays (h.waiting hbarred ht' hown') ht ?_
    rw [h.block]
    exact hown
  captured {s w} hc := by
    rw [hsight]
    rcases hcaptured s w hc with ⟨hold, halloc⟩ | hnow
    · rw [halloc]
      rcases h.captured hold with heq | ⟨hneg, hnot⟩
      · exact .inl heq
      · exact .inr ⟨hneg, h.unheld (hd w) hnot⟩
    · exact hnow
  done {s w} hc := by
    rw [hsight]
    rcases hdone s w hc with hold | hnow
    · exact h.unheld (hd w) (h.done hold)
    · exact hnow
  returned := hreturned _
  called := hcalled _ _

/-! ### Its steps -/

variable {s : ℕ} {w : Which} {locked : Bool} {rest : List (Which × Half)} {half : Half}

theorem State.capture_setCapture (c : Capture) (s' : ℕ) (w' : Which) :
    ((q.setCapture s w c).pending s').capture w' =
      if s' = s ∧ w' = w then c else (q.pending s').capture w' := by
  unfold State.setCapture
  rcases eq_or_ne s' s with rfl | hs
  · rcases eq_or_ne w' w with rfl | hw
    · simp
    · simp [hw]
  · simp [hs]

theorem State.setCapture_generation (c : Capture) (s' : ℕ) :
    ((q.setCapture s w c).pending s').generation = (q.pending s').generation := by
  unfold State.setCapture
  rcases eq_or_ne s' s with rfl | hs
  · simp
  · simp [hs]

/-- A result stays. -/
theorem State.result_setCapture {c : Capture} {s' : ℕ}
    (hc : ((q.pending s).capture w).done = true → c.done = true) (hresult : q.result s' = true) :
    (q.setCapture s w c).result s' = true := by
  have hkeep : ∀ w', ((q.pending s').capture w').done = true →
      (((q.setCapture s w c).pending s').capture w').done = true := by
    intro w' hdone
    rw [State.capture_setCapture]
    split_ifs with heq
    · obtain ⟨rfl, rfl⟩ := heq
      exact hc hdone
    · exact hdone
  unfold State.result at hresult ⊢
  obtain ⟨hraw, hvalues⟩ := (Bool.and_eq_true _ _).mp hresult
  exact (Bool.and_eq_true _ _).mpr ⟨hkeep _ hraw, hkeep _ hvalues⟩

theorem Inv.drifts_refl (h : Inv q L) (w : Which) : Drifts none (q.tier w) (q.tier w) :=
  .refl fun _ => h.sound

/-- While a half of the callback is still to run for a tier, its slot is barred. -/
theorem Inv.barred (h : Inv q L) (hcall : q.call = some (s, rest))
    (hdone : ((q.pending s).capture w).done = false) : q.Barred s := by
  refine ⟨h.called hcall, ?_⟩
  by_contra hreturned
  have hresult := h.returned (Bool.not_eq_false _ ▸ hreturned)
  unfold State.result at hresult
  obtain ⟨hraw, hvalues⟩ := (Bool.and_eq_true _ _).mp hresult
  cases w with
  | raw => exact absurd (hdone.symm.trans hraw) Bool.false_ne_true
  | values => exact absurd (hdone.symm.trans hvalues) Bool.false_ne_true

/-- What a barred slot is read as. -/
theorem Inv.allocation_eq (h : Inv q L) (hbarred : q.Barred s) {t : NvmeKvTier}
    (ht : q.tier w = some t) :
    t.allocation s = L.sight s w ∨ (t.allocation s).slot < 0 ∧ ¬ Held (q.tier w) (L.sight s w) := by
  by_cases hown : t.pool.owner s = none
  · right
    constructor
    · have hread : t.allocation s = { blockId := s } := by simp [NvmeKvTier.allocation, hown]
      rw [hread]
      exact Int.negSucc_lt_zero 0
    · intro hheld
      rw [ht] at hheld
      have hsome : t.pool.owner (L.sight s w).blockId = some (L.sight s w).slot := hheld.2.1
      rw [h.block, hown] at hsome
      cases hsome
  · left
    have hsight := h.waiting hbarred ht hown
    rw [ht] at hsight
    refine ((h.sound ht).holds_allocation hown).eq hsight ?_
    rw [NvmeKvTier.blockId_allocation, h.block]

/-- What a half leaves: the callback's side `c` of one tier, and the tier. -/
def State.put (q : State) (s : ℕ) (w : Which) (rest : List (Which × Half)) (c : Capture)
    (tier : Option NvmeKvTier) : State :=
  { q.setCapture s w c with
    tier := Function.update q.tier w tier
    call := some (s, rest) }

theorem State.advance_capture : q.advance s w rest locked .capture =
    q.put s w rest (((q.pending s).capture w).capture (q.tier w) s locked) (q.tier w) := by
  unfold State.advance State.put
  rw [Function.update_eq_self]
  rfl

theorem State.advance_free : q.advance s w rest locked .free =
    q.put s w rest (((q.pending s).capture w).free (q.tier w) locked).1
      (((q.pending s).capture w).free (q.tier w) locked).2 := rfl

theorem Inv.put (h : Inv q L) {todo : List (Which × Half)} (hcall : q.call = some (s, todo))
    {c : Capture} {tier : Option NvmeKvTier} (hd : Drifts none (q.tier w) tier)
    (hcaptured : c.captured = true → ((q.pending s).capture w).captured = true ∧
        c.allocation = ((q.pending s).capture w).allocation ∨
      (c.allocation = L.sight s w ∨ c.allocation.slot < 0 ∧ ¬ Held tier (L.sight s w)))
    (hdone : c.done = true → ((q.pending s).capture w).done = true ∨ ¬ Held tier (L.sight s w))
    (hkeep : ((q.pending s).capture w).done = true → c.done = true) :
    Inv (q.put s w rest c tier) (record q (.advance locked) (q.put s w rest c tier) L) := by
  have htier : (q.put s w rest c tier).tier w = tier := Function.update_self ..
  refine h.of_drifts (fun _ => none) ?_ rfl ?_ ?_ ?_ ?_ ?_ ?_
  · intro w'
    show Drifts none (q.tier w') (Function.update q.tier w tier w')
    rcases eq_or_ne w' w with rfl | hne
    · rw [Function.update_self]
      exact hd
    · rw [Function.update_of_ne hne]
      exact h.drifts_refl w'
  · intro w' x
    exact Nat.add_right_comm _ _ _
  · intro s' hbarred
    refine ⟨⟨?_, hbarred.2⟩, fun _ => Option.some_ne_none _ ∘ Eq.symm⟩
    rw [← State.setCapture_generation c]
    exact hbarred.1
  · intro s' w' hc
    have hat := State.capture_setCapture (q := q) (s := s) (w := w) c s' w'
    change (((q.setCapture s w c).pending s').capture w').captured = true at hc
    show _ ∧ (((q.setCapture s w c).pending s').capture w').allocation = _ ∨
      (((q.setCapture s w c).pending s').capture w').allocation = _ ∨
        (((q.setCapture s w c).pending s').capture w').allocation.slot < 0 ∧ _
    rw [hat] at hc ⊢
    split_ifs at hc ⊢ with heq
    · obtain ⟨rfl, rfl⟩ := heq
      rw [htier]
      exact hcaptured hc
    · exact .inl ⟨hc, rfl⟩
  · intro s' w' hc
    change (((q.setCapture s w c).pending s').capture w').done = true at hc
    rw [State.capture_setCapture] at hc
    split_ifs at hc with heq
    · obtain ⟨rfl, rfl⟩ := heq
      rw [htier]
      exact hdone hc
    · exact .inl hc
  · intro s' hreturned
    exact State.result_setCapture hkeep (h.returned hreturned)
  · intro s' todo' hcall'
    obtain ⟨rfl, -⟩ := Prod.mk.inj (Option.some.inj hcall')
    show ((q.setCapture s w c).pending s).generation ≠ 0
    rw [State.setCapture_generation]
    exact h.called hcall

/-- The callback captures what the tier held at first sight. -/
theorem Inv.advance (h : Inv q L) (hcall : q.call = some (s, (w, half) :: rest)) :
    Inv (q.advance s w rest locked half)
      (record q (.advance locked) (q.advance s w rest locked half) L) := by
  cases half with
  | capture =>
      rw [State.advance_capture]
      refine h.put hcall (h.drifts_refl w) ?_ ?_ ?_
      · intro hc
        rcases Capture.captured_capture hc with hold | ⟨hdone, t, ht, hread⟩
        · exact .inl hold
        · right
          rw [hread]
          exact h.allocation_eq (h.barred hcall hdone) ht
      · intro hc
        rcases Capture.done_capture hc with hold | hnone
        · exact .inl hold
        · right
          rw [hnone]
          exact id
      · intro hdone
        rw [Capture.capture_of_done hdone]
        exact hdone
  | free =>
      have hd : Drifts none (q.tier w) (((q.pending s).capture w).free (q.tier w) locked).2 :=
        Capture.free_drifts fun _ => h.sound
      rw [State.advance_free]
      refine h.put hcall hd ?_ ?_ ?_
      · intro hc
        rw [Capture.free_kept.1] at hc
        exact .inl ⟨hc, Capture.free_kept.2⟩
      · intro hc
        rcases Capture.done_free (fun _ => h.sound) hc with hold | ⟨hcaptured, hnot⟩
        · exact .inl hold
        · right
          rcases h.captured hcaptured with heq | ⟨-, hgone⟩
          · rw [← heq]
            exact hnot
          · exact h.unheld hd hgone
      · intro hdone
        rw [Capture.free_of_done hdone]
        exact hdone

theorem Inv.leave (h : Inv q L) (hcall : q.call = some (s, [])) :
    Inv { q with call := none, returned := Function.update q.returned s (q.result s) }
      (record q .leave { q with
        call := none, returned := Function.update q.returned s (q.result s) } L) := by
  refine h.of_drifts (fun _ => none) h.drifts_refl rfl ?_ ?_ ?_ ?_ ?_ ?_
  · intro w x
    have hnone : ended q { q with
        call := none, returned := Function.update q.returned s (q.result s) } w x = 0 :=
      if_neg fun hx => hx.2 hx.1
    rw [hnone]
    rfl
  · rintro s' ⟨hgen, hret⟩
    refine ⟨⟨hgen, ?_⟩, fun _ => Option.some_ne_none _ ∘ Eq.symm⟩
    change Function.update q.returned s (q.result s) s' = false at hret
    rcases eq_or_ne s' s with rfl | hne
    · rw [Function.update_self] at hret
      by_contra hreturned
      have hresult := h.returned (Bool.not_eq_false _ ▸ hreturned)
      exact absurd (hret.symm.trans hresult) Bool.false_ne_true
    · rw [Function.update_of_ne hne] at hret
      exact hret
  · intro s' w hc
    exact .inl ⟨hc, rfl⟩
  · intro s' w hc
    exact .inl hc
  · intro s' hret
    change Function.update q.returned s (q.result s) s' = true at hret
    rcases eq_or_ne s' s with rfl | hne
    · rw [Function.update_self] at hret
      exact hret
    · rw [Function.update_of_ne hne] at hret
      exact h.returned hret
  · intro s' todo hcall
    cases hcall

/-- The others' steps leave the barred slots alone. -/
theorem Inv.act (h : Inv q L) {t : NvmeKvTier} {a : NvmeKvTier.Action} (ht : q.tier w = some t)
    (hallowed : Allowed q t a) : Inv (q.act w t a) (record q (.tier w a) (q.act w t a) L) := by
  obtain ⟨hdef, hfree⟩ := hallowed
  -- a block that the step places and that had a slot already is not fresh
  obtain ⟨fresh, hd, hfresh⟩ : ∃ fresh, Drifts fresh (some t) (some (t.step a)) ∧
      ∀ b, fresh = some b → ¬ q.Barred b := by
    have hl := (h.sound ht).lives hdef
    have hs := (h.sound ht).step hdef
    cases hplaces : a.places with
    | none =>
        rw [hplaces] at hl
        exact ⟨none, .steps (h.sound ht) hs hl, fun b hb => by cases hb⟩
    | some b =>
        rw [hplaces] at hl
        by_cases hown : t.pool.owner b = none
        · refine ⟨some b, .steps (h.sound ht) hs hl, ?_⟩
          rintro b' hb'
          obtain rfl := Option.some.inj hb'
          exact hfree b hplaces hown
        · refine ⟨none, .steps (h.sound ht) hs ⟨hl.sequence_le, ?_⟩, fun b hb => by cases hb⟩
          intro c slot hc
          rcases hl.live c slot hc with ⟨heq, hnone, -⟩ | hold
          · obtain rfl := Option.some.inj heq
            exact absurd hnone hown
          · exact .inr hold
  refine h.of_drifts (Function.update (fun _ => none) w fresh) ?_ rfl ?_ ?_ ?_ ?_ ?_ ?_
  · intro w'
    show Drifts _ (q.tier w') (Function.update q.tier w (some (t.step a)) w')
    rcases eq_or_ne w' w with rfl | hne
    · rw [Function.update_self, Function.update_self, ht]
      exact hd
    · rw [Function.update_of_ne hne, Function.update_of_ne hne]
      exact h.drifts_refl w'
  · intro w' x
    exact (Nat.add_assoc _ _ _).symm
  · intro s' hbarred
    refine ⟨hbarred, ?_⟩
    intro w' heq
    rcases eq_or_ne w' w with rfl | hne
    · rw [Function.update_self] at heq
      exact hfresh s' heq hbarred
    · rw [Function.update_of_ne hne] at heq
      cases heq
  · intro s' w' hc
    exact .inl ⟨hc, rfl⟩
  · intro s' w' hc
    exact .inl hc
  · intro s' hret
    exact h.returned hret
  · intro s' todo hcall
    exact h.called hcall

theorem blockId_look (tier : Option NvmeKvTier) (b : ℕ) : (look tier b).blockId = b := by
  cases tier with
  | none => rfl
  | some t => exact NvmeKvTier.blockId_allocation b

/-- What is seen is held. -/
theorem held_look {tier : Option NvmeKvTier} {b : ℕ} (h : ∀ t, tier = some t → t.Sound)
    (hslot : 0 ≤ (look tier b).slot) : Held tier (look tier b) := by
  cases tier with
  | none => exact absurd hslot (Int.not_le.mpr (Int.negSucc_lt_zero 0))
  | some t =>
      by_cases hown : t.pool.owner b = none
      · have hread : t.allocation b = { blockId := b } := by simp [NvmeKvTier.allocation, hown]
        change 0 ≤ (t.allocation b).slot at hslot
        rw [hread] at hslot
        exact absurd hslot (Int.not_le.mpr (Int.negSucc_lt_zero 0))
      · exact (h t rfl).holds_allocation hown

/-- The first look at a generation. -/
theorem Inv.enter (h : Inv q L) {b : KvMemBlockHandle} (hpos : 0 < b.generation) :
    Inv (q.enter b) (record q (.call b) (q.enter b) L) := by
  by_cases hsame : (q.pending b.slot).generation = b.generation
  · have henter : q.enter b = { q with call := some (b.slot, halves) } := if_pos hsame
    rw [henter]
    refine h.of_drifts (fun _ => none) h.drifts_refl (if_pos hsame) ?_ ?_ ?_ ?_ ?_ ?_
    · intro w x
      have hnone : ended q { q with call := some (b.slot, halves) } w x = 0 :=
        if_neg fun hx => hx.2 hx.1
      rw [hnone]
      rfl
    · intro s' hbarred
      exact ⟨hbarred, fun _ => Option.some_ne_none _ ∘ Eq.symm⟩
    · intro s' w hc
      exact .inl ⟨hc, rfl⟩
    · intro s' w hc
      exact .inl hc
    · intro s' hret
      exact h.returned hret
    · intro s' todo hcall
      obtain ⟨rfl, -⟩ := Prod.mk.inj (Option.some.inj hcall)
      show (q.pending b.slot).generation ≠ 0
      rw [hsame]
      exact hpos.ne'
  · obtain ⟨u, hu⟩ : ∃ u, u = q.enter b := ⟨_, rfl⟩
    have henter : q.enter b = _ := if_neg hsame
    have hsight : (record q (.call b) u L).sight =
      Function.update L.sight b.slot fun w => look (q.tier w) b.slot := if_neg hsame
    rw [← hu]
    rw [henter] at hu
    have htier : u.tier = q.tier := by rw [hu]
    have hcount : ∀ w x, (record q (.call b) u L).count w x = L.count w x + ended q u w x := by
      intro w x
      have hnone : ended q u w x = 0 := if_neg fun hx => hx.2 (htier ▸ hx.1)
      rw [hnone]
      rfl
    have hd : ∀ w, Drifts none (q.tier w) (u.tier w) := by
      intro w
      rw [htier]
      exact h.drifts_refl w
    -- the slot of the call starts over, every other one is as it was
    have hold : ∀ s, s ≠ b.slot → u.pending s = q.pending s ∧ u.returned s = q.returned s ∧
        (record q (.call b) u L).sight s = L.sight s := by
      intro s hne
      rw [hsight, hu]
      exact ⟨Function.update_of_ne hne .., Function.update_of_ne hne ..,
        Function.update_of_ne hne ..⟩
    have hnew : u.pending b.slot = { generation := b.generation } ∧ u.returned b.slot = false ∧
        ∀ w, (record q (.call b) u L).sight b.slot w = look (q.tier w) b.slot := by
      rw [hsight, hu]
      exact ⟨Function.update_self .., Function.update_self ..,
        fun w => by rw [Function.update_self]⟩
    have hacc := h.toAccounts.step hd hcount
    refine { toAccounts := hacc, block := ?_, sight := ?_, waiting := ?_, captured := ?_,
             done := ?_, returned := ?_, called := ?_ }
    · intro s w
      rcases eq_or_ne s b.slot with rfl | hne
      · rw [hnew.2.2]
        exact blockId_look ..
      · rw [(hold s hne).2.2]
        exact h.block s w
    · intro s w hslot
      rcases eq_or_ne s b.slot with rfl | hne
      · rw [hnew.2.2] at hslot ⊢
        rw [htier]
        have hheld := held_look (fun _ => h.sound) hslot
        exact ⟨(h.drifts_refl w).generation_le hheld, .inl hheld⟩
      · rw [(hold s hne).2.2] at hslot ⊢
        obtain ⟨hle, hx⟩ := h.sight hslot
        exact ⟨hle.trans (hd w).sequence_le, h.kept hcount hx⟩
    · intro s w t hbarred ht hown
      rw [htier] at ht ⊢
      rcases eq_or_ne s b.slot with rfl | hne
      · rw [hnew.2.2, ht]
        exact (h.sound ht).holds_allocation hown
      · rw [(hold s hne).2.2]
        refine h.waiting ⟨?_, ?_⟩ ht hown
        · rw [← (hold s hne).1]
          exact hbarred.1
        · rw [← (hold s hne).2.1]
          exact hbarred.2
    · intro s w hc
      rw [htier]
      rcases eq_or_ne s b.slot with rfl | hne
      · rw [hnew.1] at hc
        cases hc
      · rw [(hold s hne).1] at hc ⊢
        rw [(hold s hne).2.2]
        exact h.captured hc
    · intro s w hc
      rw [htier]
      rcases eq_or_ne s b.slot with rfl | hne
      · rw [hnew.1] at hc
        cases hc
      · rw [(hold s hne).1] at hc
        rw [(hold s hne).2.2]
        exact h.done hc
    · intro s hret
      rcases eq_or_ne s b.slot with rfl | hne
      · rw [hnew.2.1] at hret
        cases hret
      · rw [(hold s hne).2.1] at hret
        unfold State.result
        rw [(hold s hne).1]
        exact h.returned hret
    · intro s todo hcall
      have hslot : b.slot = s := by
        rw [hu] at hcall
        exact (Prod.mk.inj (Option.some.inj hcall)).1
      rw [← hslot, hnew.1]
      exact hpos.ne'

end Invariant

theorem inv_invariant (capacity : ℕ) :
    (machine capacity).Invariant fun p => Inv p.1 p.2 where
  init p hp := by
    obtain ⟨q, L⟩ := p
    obtain ⟨⟨htier, hq⟩, rfl⟩ := hp
    change q = { tier := q.tier } at hq
    rw [hq]
    exact {
      sound := fun ht => (htier _ _ ht).sound
      once := fun _ _ => Nat.zero_le 1
      held := fun _ => rfl
      new := fun _ => rfl
      block := fun _ _ => rfl
      sight := fun hslot => absurd hslot (Int.not_le.mpr (Int.negSucc_lt_zero 0))
      waiting := fun hbarred => absurd rfl hbarred.1
      captured := fun hc => by cases hc
      done := fun hc => by cases hc
      returned := fun hret => by cases hret
      called := fun hcall => by cases hcall }
  step p a r hp hr := by
    obtain ⟨q, L⟩ := p
    obtain ⟨u, hu, rfl⟩ := Machine.withHistory_step.mp hr
    change step capacity q a = some u at hu
    change Inv q L at hp
    show Inv u (record q a u L)
    cases a with
    | call b =>
        unfold step at hu
        dsimp only at hu
        split_ifs at hu with hguard
        obtain rfl := Option.some.inj hu
        exact hp.enter hguard.2.1
    | advance locked =>
        unfold step at hu
        dsimp only at hu
        split at hu
        · next slot w half rest hcall =>
            obtain rfl := Option.some.inj hu
            exact hp.advance hcall
        · cases hu
    | leave =>
        unfold step at hu
        dsimp only at hu
        split at hu
        · next slot hcall =>
            obtain rfl := Option.some.inj hu
            exact hp.leave hcall
        · cases hu
    | tier w a =>
        unfold step at hu
        dsimp only at hu
        split at hu
        · next t ht =>
            split_ifs at hu with hallowed
            obtain rfl := Option.some.inj hu
            exact hp.act ht hallowed
        · cases hu

/-! ## Storage is released exactly once -/

/-- For every run of the callback, its locks failing at will, with the others' steps
in between, of which none places a new allocation for a slot before the callback
has returned true for the slot's generation: once it has returned true, what a tier
held at first sight is not held any more and was given up once, and nothing is ever
given up twice; when it returns true for the first time neither tier has anything
for the slot; and what the callback gives up is what was held at first sight of the
generation that it was called for. -/
theorem storageRelease (capacity : ℕ) (q : State) (L : Ledger)
    (h : (machine capacity).Reachable (q, L)) :
    (∀ s w, q.returned s = true → ¬ Held (q.tier w) (L.sight s w) ∧
      (0 ≤ (L.sight s w).slot → L.freed w (L.sight s w) + L.lost w (L.sight s w) = 1)) ∧
    (∀ w x, L.freed w x + L.lost w x ≤ 1) ∧
    (∀ s, q.call = some (s, []) → q.result s = true → q.returned s = false →
      ∀ w t, q.tier w = some t → t.pool.owner s = none) ∧
    (∀ locked u, step capacity q (.advance locked) = some u → ∀ w x, Held (q.tier w) x →
      ¬ Held (u.tier w) x → ∃ s todo, q.call = some (s, todo) ∧ x = L.sight s w) := by
  have hinv : Inv q L := (inv_invariant capacity).reachable h
  have hdone : ∀ s, q.result s = true → ∀ w, ((q.pending s).capture w).done = true := by
    intro s hresult w
    unfold State.result at hresult
    obtain ⟨hraw, hvalues⟩ := (Bool.and_eq_true _ _).mp hresult
    cases w with
    | raw => exact hraw
    | values => exact hvalues
  refine ⟨?_, hinv.once, ?_, ?_⟩
  · intro s w hret
    have hnot := hinv.done (hdone s (hinv.returned hret) w)
    refine ⟨hnot, ?_⟩
    intro hslot
    exact (hinv.sight hslot).2.resolve_left hnot
  · intro s hcall hresult hret w t ht
    by_contra hown
    exact hinv.done (hdone s hresult w) (hinv.waiting ⟨hinv.called hcall, hret⟩ ht hown)
  · intro locked u hu w x hx hnot
    unfold step at hu
    dsimp only at hu
    split at hu
    · next slot w' half rest hcall =>
        obtain rfl := Option.some.inj hu
        refine ⟨slot, _, hcall, ?_⟩
        cases half with
        | capture => exact absurd hx hnot
        | free =>
            have htier : (q.advance slot w' rest locked .free).tier = Function.update q.tier w'
              (((q.pending slot).capture w').free (q.tier w') locked).2 := rfl
            rw [htier] at hnot
            rcases eq_or_ne w w' with rfl | hne
            · rw [Function.update_self] at hnot
              obtain ⟨-, hcaptured, rfl⟩ := Capture.eq_of_free (fun _ => hinv.sound) hx hnot
              rcases hinv.captured hcaptured with heq | ⟨hneg, -⟩
              · exact heq
              · -- what is held has a slot
                exact absurd (slot_of_held hx) (by omega)
            · rw [Function.update_of_ne hne] at hnot
              exact absurd hx hnot
    · cases hu

/-- Two tiers of two slots. -/
def twoSlots : State := { tier := fun _ => some (.initial ⟨"kv", 2, 1, false⟩) }

/-- The raw tier's lock is taken when it is to be released, and the next call
releases it. -/
theorem storageRelease_retried : ∃ q L, (machine 2).Reachable (q, L) ∧ q.returned 1 = true ∧
    L.sight 1 .raw = ⟨1, 0, 1⟩ ∧ L.freed .raw ⟨1, 0, 1⟩ + L.lost .raw ⟨1, 0, 1⟩ = 1 := by
  have hrun : ((machine 2).run (twoSlots, {})
      [.tier .raw (.placeBlock 1), .call ⟨1, 1⟩, .advance true, .advance false, .advance true,
        .advance true, .leave, .call ⟨1, 1⟩, .advance true, .advance true, .advance true,
        .advance true, .leave]).any
      (fun p => p.1.returned 1 && decide (p.2.sight 1 .raw = ⟨1, 0, 1⟩)) = true := by
    decide +kernel
  have hinit : (machine 2).init (twoSlots, {}) := by
    refine ⟨⟨?_, rfl⟩, rfl⟩
    intro w t ht
    obtain rfl := Option.some.inj ht
    exact ⟨_, rfl, .of_init rfl⟩
  obtain ⟨⟨q, L⟩, hreach, hcheck⟩ := Machine.exists_reachable hinit hrun
  obtain ⟨hret, hsight⟩ := (Bool.and_eq_true _ _).mp hcheck
  have hsight := of_decide_eq_true hsight
  refine ⟨q, L, hreach, hret, hsight, ?_⟩
  have honce := ((storageRelease 2 q L hreach).1 1 .raw hret).2
  rw [hsight] at honce
  exact honce (by decide)

end Qw3.RepositoryGc.StorageRelease
