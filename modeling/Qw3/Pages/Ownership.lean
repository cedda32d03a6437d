import Mathlib.Data.Fintype.Sum
import Mathlib.Data.Fintype.Basic
import Qw3.Lib.Machine
import Qw3.Pages.SharedPool

/-!
# Owners of pages

The global pool, any leases over it and any other parties that take pages from the
global pool itself, the prefix cache among them.

* `machine` — their steps; the constructor of a lease takes its pages one by one.
* `State.Holds` — who holds a page.
* `State.Owned` — every held page has one holder, and is allocated.
* `pagePools` — **pages have one owner**, as long as nobody releases somebody
  else's page on the global pool.
-/

namespace Qw3.Pages

open Qw3.Tier (freshSlots)

/-- The pools, and the pages that each party has taken and not given back. -/
structure State (κ ι : Type) where
  global : GlobalKvPagePool
  lease : ι → Option SharedKvPagePool
  hands : κ → ℤ → Bool

/-- A step of a party, of the prefix cache or of a lease. -/
inductive Action (κ ι : Type)
  | allocate (k : κ)
  | release (k : κ) (pages : List ℤ)
  | pin (pages : List ℤ)
  | unpin (pages : List ℤ)
  | openLease (i : ι) (resident reserve : ℕ) (label : String)
  | acquire (i : ι)
  | leaseAllocate (i : ι)
  | leaseRelease (i : ι) (pages : List ℤ)
  | setTransient (i : ι) (enabled : Bool)
  | destroy (i : ι)

variable {κ ι : Type}

/-- A lease, where there is one, has the page. -/
def HeldBy (l : Option SharedKvPagePool) (p : ℤ) : Prop :=
  match l with
  | none => False
  | some l => p ∈ l.pages ++ l.privates

instance (l : Option SharedKvPagePool) (p : ℤ) : Decidable (HeldBy l p) :=
  match l with
  | none => .isFalse id
  | some l => inferInstanceAs (Decidable (p ∈ l.pages ++ l.privates))

/-- The page is one of those that a lease took in its constructor. -/
def ResidentIn (l : Option SharedKvPagePool) (p : ℤ) : Prop :=
  match l with
  | none => False
  | some l => p ∈ l.pages

instance (l : Option SharedKvPagePool) (p : ℤ) : Decidable (ResidentIn l p) :=
  match l with
  | none => .isFalse id
  | some l => inferInstanceAs (Decidable (p ∈ l.pages))

namespace State

variable (q : State κ ι)

/-- Who holds a page: a party, or a lease. -/
def Holds : κ ⊕ ι → ℤ → Prop
  | .inl k, p => q.hands k p = true
  | .inr i, p => HeldBy (q.lease i) p

instance (o : κ ⊕ ι) (p : ℤ) : Decidable (q.Holds o p) :=
  match o with
  | .inl k => inferInstanceAs (Decidable (q.hands k p = true))
  | .inr i => inferInstanceAs (Decidable (HeldBy (q.lease i) p))

/-- A page that a lease has and has not handed out. -/
def Idle (i : ι) (p : ℤ) : Bool :=
  match q.lease i with
  | none => false
  | some l =>
      match l.slots p with
      | none => false
      | some s => !l.inUse s

/-- A page that was handed out by one of the pools. -/
def HandedOut (p : ℤ) : Prop := q.global.allocated p = true ∧ ∀ i, q.Idle i p = false

instance [Fintype ι] (p : ℤ) : Decidable (q.HandedOut p) := inferInstanceAs (Decidable (_ ∧ _))

variable [DecidableEq ι]

/-- A lease changes, and the pool below it. -/
def setLease (i : ι) (l : Option SharedKvPagePool) (g : GlobalKvPagePool) : State κ ι :=
  { q with global := g, lease := Function.update q.lease i l }

/-- The constructor of a lease takes a page, and throws where there is none. -/
def acquire (i : ι) (l : SharedKvPagePool) : State κ ι :=
  match q.global.allocatePhysicalPage with
  | .error _ => q.setLease i none (q.global.releasePhysicalPages l.pages)
  | .ok (page, g) =>
      match l.addPage g page with
      | some l' => q.setLease i (some l') g
      | none => q.setLease i none (g.releasePhysicalPages (l.pages ++ [page]))

end State

section Machine

variable [DecidableEq κ] [DecidableEq ι] [Fintype ι]

/-- A step.  A page outside the bounds of `allocated_` is not taken, and pins are on
pages that were handed out. -/
def step (q : State κ ι) : Action κ ι → Option (State κ ι)
  | .allocate k =>
      match q.global.allocatePhysicalPage with
      | .ok (page, g) =>
          if q.global.NextIndexed then
            some { q with
              global := g
              hands := Function.update q.hands k (Function.update (q.hands k) page true) }
          else none
      | .error _ => none
  | .release k pages =>
      some { q with
        global := q.global.releasePhysicalPages pages
        hands := Function.update q.hands k fun p => q.hands k p && decide (p ∉ pages) }
  | .pin pages =>
      if ∀ p ∈ pages, q.HandedOut p then some { q with global := q.global.pinPages pages } else none
  | .unpin pages => some { q with global := q.global.unpinPages pages }
  | .openLease i resident reserve label =>
      if (q.lease i).isNone ∧ SharedKvPagePool.ValidQuota resident reserve then
        some (q.setLease i (some { resident, reserve, label }) q.global)
      else none
  | .acquire i =>
      match q.lease i with
      | some l =>
          if l.pages.length < l.resident ∧ q.global.NextIndexed then some (q.acquire i l) else none
      | none => none
  | .leaseAllocate i =>
      match q.lease i with
      | some l =>
          if l.Complete ∧ (l.free ≠ [] ∨ q.global.NextIndexed) then
            match l.allocatePhysicalPage q.global with
            | .ok (_, l, g) => some (q.setLease i (some l) g)
            | .error _ => none
          else none
      | none => none
  | .leaseRelease i pages =>
      match q.lease i with
      | some l =>
          if l.Complete then
            let (l, g) := l.releasePhysicalPages q.global pages
            some (q.setLease i (some l) g)
          else none
      | none => none
  | .setTransient i enabled =>
      match q.lease i with
      | some l =>
          if l.Complete then some (q.setLease i (some { l with transient := enabled }) q.global)
          else none
      | none => none
  | .destroy i =>
      match q.lease i with
      | some l => if l.Complete then some (q.setLease i none (l.destroy q.global)) else none
      | none => none

/-- The runs over a pool of `totalPages` pages. -/
def machine (κ ι : Type) [DecidableEq κ] [DecidableEq ι] [Fintype ι] (totalPages : BitVec 32) (pageSize : ℕ) : Machine (State κ ι) (Action κ ι) where
  init q := q = ⟨.initial totalPages.toNat pageSize, fun _ => none, fun _ _ => false⟩
  step := step

/-- What a step does, and what it checked. -/
inductive Moves (q : State κ ι) : Action κ ι → State κ ι → Prop
  | allocate {k : κ} {page : ℤ} {g : GlobalKvPagePool} (hnext : q.global.NextIndexed)
      (hg : q.global.allocatePhysicalPage = .ok (page, g)) :
      Moves q (.allocate k) { q with
        global := g
        hands := Function.update q.hands k (Function.update (q.hands k) page true) }
  | release (k : κ) (pages : List ℤ) :
      Moves q (.release k pages) { q with
        global := q.global.releasePhysicalPages pages
        hands := Function.update q.hands k fun p => q.hands k p && decide (p ∉ pages) }
  | pin {pages : List ℤ} (hout : ∀ p ∈ pages, q.HandedOut p) :
      Moves q (.pin pages) { q with global := q.global.pinPages pages }
  | unpin (pages : List ℤ) : Moves q (.unpin pages) { q with global := q.global.unpinPages pages }
  | openLease {i : ι} {resident reserve : ℕ} {label : String} (hnone : q.lease i = none)
      (hquota : SharedKvPagePool.ValidQuota resident reserve) :
      Moves q (.openLease i resident reserve label)
        (q.setLease i (some { resident, reserve, label }) q.global)
  | acquire {i : ι} {l : SharedKvPagePool} (hl : q.lease i = some l)
      (hbuild : l.pages.length < l.resident) (hnext : q.global.NextIndexed) :
      Moves q (.acquire i) (q.acquire i l)
  | leaseAllocate {i : ι} {l l' : SharedKvPagePool} {page : ℤ} {g : GlobalKvPagePool}
      (hl : q.lease i = some l) (hc : l.Complete) (hnext : l.free ≠ [] ∨ q.global.NextIndexed)
      (halloc : l.allocatePhysicalPage q.global = .ok (page, l', g)) :
      Moves q (.leaseAllocate i) (q.setLease i (some l') g)
  | leaseRelease {i : ι} {l : SharedKvPagePool} (pages : List ℤ) (hl : q.lease i = some l)
      (hc : l.Complete) :
      Moves q (.leaseRelease i pages)
        (q.setLease i (some (l.releasePhysicalPages q.global pages).1)
          (l.releasePhysicalPages q.global pages).2)
  | setTransient {i : ι} {l : SharedKvPagePool} (enabled : Bool) (hl : q.lease i = some l)
      (hc : l.Complete) :
      Moves q (.setTransient i enabled)
        (q.setLease i (some { l with transient := enabled }) q.global)
  | destroy {i : ι} {l : SharedKvPagePool} (hl : q.lease i = some l) (hc : l.Complete) :
      Moves q (.destroy i) (q.setLease i none (l.destroy q.global))

theorem moves_of_step {q u : State κ ι} {a : Action κ ι} (hu : step q a = some u) :
    Moves q a u := by
  unfold step at hu
  cases a with
  | allocate k =>
      dsimp only at hu
      cases hg : q.global.allocatePhysicalPage with
      | error e => rw [hg] at hu; cases hu
      | ok taken =>
          rw [hg] at hu
          dsimp only at hu
          split_ifs at hu with hnext
          obtain rfl := Option.some.inj hu
          exact .allocate hnext hg
  | release k pages =>
      obtain rfl := Option.some.inj hu
      exact .release k pages
  | pin pages =>
      dsimp only at hu
      split_ifs at hu with hout
      obtain rfl := Option.some.inj hu
      exact .pin hout
  | unpin pages =>
      obtain rfl := Option.some.inj hu
      exact .unpin pages
  | openLease i resident reserve label =>
      dsimp only at hu
      split_ifs at hu with hopen
      obtain rfl := Option.some.inj hu
      exact .openLease (Option.isNone_iff_eq_none.mp hopen.1) hopen.2
  | acquire i =>
      dsimp only at hu
      cases hl : q.lease i with
      | none => rw [hl] at hu; cases hu
      | some l =>
          rw [hl] at hu
          dsimp only at hu
          split_ifs at hu with hbuild
          obtain rfl := Option.some.inj hu
          exact .acquire hl hbuild.1 hbuild.2
  | leaseAllocate i =>
      dsimp only at hu
      cases hl : q.lease i with
      | none => rw [hl] at hu; cases hu
      | some l =>
          rw [hl] at hu
          dsimp only at hu
          split_ifs at hu with hready
          cases halloc : l.allocatePhysicalPage q.global with
          | error e => rw [halloc] at hu; cases hu
          | ok taken =>
              rw [halloc] at hu
              obtain rfl := Option.some.inj hu
              exact .leaseAllocate hl hready.1 hready.2 halloc
  | leaseRelease i pages =>
      dsimp only at hu
      cases hl : q.lease i with
      | none => rw [hl] at hu; cases hu
      | some l =>
          rw [hl] at hu
          dsimp only at hu
          split_ifs at hu with hcomplete
          obtain rfl := Option.some.inj hu
          exact .leaseRelease pages hl hcomplete
  | setTransient i enabled =>
      dsimp only at hu
      cases hl : q.lease i with
      | none => rw [hl] at hu; cases hu
      | some l =>
          rw [hl] at hu
          dsimp only at hu
          split_ifs at hu with hcomplete
          obtain rfl := Option.some.inj hu
          exact .setTransient enabled hl hcomplete
  | destroy i =>
      dsimp only at hu
      cases hl : q.lease i with
      | none => rw [hl] at hu; cases hu
      | some l =>
          rw [hl] at hu
          dsimp only at hu
          split_ifs at hu with hcomplete
          obtain rfl := Option.some.inj hu
          exact .destroy hl hcomplete

end Machine

/-- Nobody releases a page of somebody else on the global pool. -/
def Disciplined (q : State κ ι) : Action κ ι → Prop
  | .release k pages => ∀ p ∈ pages, ∀ o, o ≠ .inl k → ¬ q.Holds o p
  | _ => True

instance [DecidableEq κ] [DecidableEq ι] [Fintype κ] [Fintype ι] (q : State κ ι)
    (a : Action κ ι) : Decidable (Disciplined q a) :=
  match a with
  | .release k pages =>
      inferInstanceAs (Decidable (∀ p ∈ pages, ∀ o, o ≠ .inl k → ¬ q.Holds o p))
  | .allocate _ | .pin _ | .unpin _ | .openLease _ _ _ _ | .acquire _ | .leaseAllocate _
  | .leaseRelease _ _ | .setTransient _ _ | .destroy _ => .isTrue trivial

/-- A lease is not given back a resident page while it is pinned. -/
def Retaining (q : State κ ι) : Action κ ι → Prop
  | .leaseRelease i pages =>
      ∀ p ∈ pages, ResidentIn (q.lease i) p → q.global.pagePinRefcount p = 0
  | _ => True

instance (q : State κ ι) (a : Action κ ι) : Decidable (Retaining q a) :=
  match a with
  | .leaseRelease i pages =>
      inferInstanceAs (Decidable (∀ p ∈ pages, ResidentIn (q.lease i) p → _ = 0))
  | .allocate _ | .release _ _ | .pin _ | .unpin _ | .openLease _ _ _ _ | .acquire _
  | .leaseAllocate _ | .setTransient _ _ | .destroy _ => .isTrue trivial

/-! ## One holder -/

/-- Every held page has one holder and is allocated. -/
structure State.Owned (q : State κ ι) : Prop where
  sound : q.global.Sound
  ok : ∀ {i l}, q.lease i = some l → l.Ok
  live : ∀ {o p}, q.Holds o p → q.global.allocated p = true
  unique : ∀ {o o' p}, q.Holds o p → q.Holds o' p → o = o'

section Owned

variable {q u : State κ ι}

open State

/-- New pages go to one holder, and were not allocated. -/
theorem State.Owned.of_holds (h : Owned q) (actor : κ ⊕ ι) (hsound : u.global.Sound)
    (hok : ∀ i l, u.lease i = some l → l.Ok)
    (hlive : ∀ o p, u.Holds o p → u.global.allocated p = true)
    (hholds : ∀ o p, u.Holds o p → q.Holds o p ∨ o = actor ∧ q.global.allocated p = false) :
    Owned u where
  sound := hsound
  ok hl := hok _ _ hl
  live hp := hlive _ _ hp
  unique {o o' p} ho ho' := by
    rcases hholds o p ho with hold | ⟨rfl, hnew⟩
    · rcases hholds o' p ho' with hold' | ⟨rfl, hnew⟩
      · exact h.unique hold hold'
      · exact absurd (hnew.symm.trans (h.live hold)) Bool.false_ne_true
    · rcases hholds o' p ho' with hold' | ⟨rfl, -⟩
      · exact absurd (hnew.symm.trans (h.live hold')) Bool.false_ne_true
      · rfl

variable {g : GlobalKvPagePool}

/-- The pool changes, and what is allocated stays so. -/
theorem State.Owned.setGlobal (h : Owned q) (hsound : g.Sound)
    (hlive : ∀ p, q.global.allocated p = true → g.allocated p = true) :
    Owned { q with global := g } where
  sound := hsound
  ok := h.ok
  live hp := hlive _ (h.live hp)
  unique := h.unique

/-- A page that is still allocated after some other pages were released. -/
theorem allocated_of_not_mem (hg : g.Sound) {pages : List ℤ} {p : ℤ}
    (hp : g.allocated p = true) (hmem : p ∉ pages) :
    (g.releasePhysicalPages pages).allocated p = true :=
  (hg.allocated_release pages p).mpr ⟨hp, fun h => absurd h hmem⟩

section Parties

variable [DecidableEq κ]

/-- A party takes a page. -/
theorem State.Owned.allocate (h : Owned q) {k : κ} {page : ℤ}
    (hnext : q.global.NextIndexed) (hg : q.global.allocatePhysicalPage = .ok (page, g)) :
    Owned { q with
      global := g
      hands := Function.update q.hands k (Function.update (q.hands k) page true) } := by
  obtain ⟨hsound, hfree, halloc, -⟩ := h.sound.allocate hnext hg
  have hold : ∀ o p, State.Holds { q with
      global := g
      hands := Function.update q.hands k (Function.update (q.hands k) page true) } o p →
      q.Holds o p ∨ o = .inl k ∧ p = page := by
    intro o p hp
    cases o with
    | inr i => exact .inl hp
    | inl k' =>
        change Function.update q.hands k _ k' p = true at hp
        rcases eq_or_ne k' k with rfl | hk
        · rw [Function.update_self] at hp
          rcases eq_or_ne p page with rfl | hne
          · exact .inr ⟨rfl, rfl⟩
          · rw [Function.update_of_ne hne] at hp
            exact .inl hp
        · rw [Function.update_of_ne hk] at hp
          exact .inl hp
  refine h.of_holds (.inl k) hsound (fun i l hl => h.ok hl) ?_ ?_
  · intro o p hp
    show g.allocated p = true
    rw [halloc]
    rcases hold o p hp with hp | ⟨-, rfl⟩
    · rw [Function.update_apply, h.live hp, ite_self]
    · exact Function.update_self ..
  · intro o p hp
    rcases hold o p hp with hp | ⟨ho, rfl⟩
    · exact .inl hp
    · exact .inr ⟨ho, hfree⟩

/-- A party gives back pages that are nobody else's. -/
theorem State.Owned.release (h : Owned q) {k : κ} {pages : List ℤ}
    (hmine : ∀ p ∈ pages, ∀ o, o ≠ .inl k → ¬ q.Holds o p) :
    Owned { q with
      global := q.global.releasePhysicalPages pages
      hands := Function.update q.hands k fun p => q.hands k p && decide (p ∉ pages) } := by
  have hold : ∀ o p, State.Holds { q with
      global := q.global.releasePhysicalPages pages
      hands := Function.update q.hands k fun p => q.hands k p && decide (p ∉ pages) } o p →
      q.Holds o p ∧ p ∉ pages := by
    intro o p hp
    have hother : o ≠ .inl k → q.Holds o p → p ∉ pages := by
      intro ho hp hmem
      exact hmine p hmem o ho hp
    cases o with
    | inr i => exact ⟨hp, hother (fun heq => by cases heq) hp⟩
    | inl k' =>
        change Function.update q.hands k _ k' p = true at hp
        rcases eq_or_ne k' k with rfl | hk
        · rw [Function.update_self] at hp
          obtain ⟨hp, hmem⟩ := (Bool.and_eq_true _ _).mp hp
          exact ⟨hp, of_decide_eq_true hmem⟩
        · rw [Function.update_of_ne hk] at hp
          exact ⟨hp, hother (fun heq => hk (Sum.inl.inj heq)) hp⟩
  refine h.of_holds (.inl k) (h.sound.release pages) (fun i l hl => h.ok hl) ?_ ?_
  · intro o p hp
    obtain ⟨hp, hmem⟩ := hold o p hp
    exact allocated_of_not_mem h.sound (h.live hp) hmem
  · intro o p hp
    exact .inl (hold o p hp).1

end Parties

section Leases

variable [DecidableEq ι]

/-- A lease changes, and the others' pages stay allocated. -/
theorem State.Owned.setLease (h : Owned q) {i : ι} {l : Option SharedKvPagePool}
    (hsound : g.Sound) (hok : ∀ l', l = some l' → l'.Ok)
    (hself : ∀ p, HeldBy l p →
      (q.Holds (.inr i) p ∨ q.global.allocated p = false) ∧ g.allocated p = true)
    (hothers : ∀ p, q.global.allocated p = true → ¬ q.Holds (.inr i) p → g.allocated p = true) :
    Owned (q.setLease i l g) := by
  have hne : ∀ o p, o ≠ .inr i → ((q.setLease i l g).Holds o p ↔ q.Holds o p) := by
    intro o p hne
    cases o with
    | inl k => exact Iff.rfl
    | inr j =>
        have hj : j ≠ i := fun heq => hne (heq ▸ rfl)
        show HeldBy (Function.update q.lease i l j) p ↔ HeldBy (q.lease j) p
        rw [Function.update_of_ne hj]
  have hat : ∀ p, (q.setLease i l g).Holds (.inr i) p ↔ HeldBy l p := by
    intro p
    show HeldBy (Function.update q.lease i l i) p ↔ HeldBy l p
    rw [Function.update_self]
  refine h.of_holds (.inr i) hsound ?_ ?_ ?_
  · intro j l' hl'
    change Function.update q.lease i l j = some l' at hl'
    rcases eq_or_ne j i with rfl | hj
    · rw [Function.update_self] at hl'
      exact hok l' hl'
    · rw [Function.update_of_ne hj] at hl'
      exact h.ok hl'
  · intro o p hp
    by_cases ho : o = .inr i
    · rw [ho, hat] at hp
      exact (hself p hp).2
    · rw [hne o p ho] at hp
      exact hothers p (h.live hp) fun hi => ho (h.unique hp hi)
  · intro o p hp
    by_cases ho : o = .inr i
    · rw [ho, hat] at hp
      rcases (hself p hp).1 with hold | hnew
      · exact .inl (ho ▸ hold)
      · exact .inr ⟨ho, hnew⟩
    · exact .inl ((hne o p ho).mp hp)

/-- The constructor of a lease. -/
theorem State.Owned.acquire (h : Owned q) {i : ι} {l : SharedKvPagePool} (hl : q.lease i = some l)
    (hbuild : l.pages.length < l.resident) (hnext : q.global.NextIndexed) :
    Owned (q.acquire i l) := by
  have hheld : ∀ p, q.Holds (.inr i) p ↔ p ∈ l.pages ++ l.privates := by
    intro p
    show HeldBy (q.lease i) p ↔ _
    rw [hl]
    rfl
  unfold State.acquire
  cases hg : q.global.allocatePhysicalPage with
  | error e =>
      refine h.setLease (h.sound.release _) (fun l' hl' => by cases hl') (fun p hp => hp.elim) ?_
      intro p hp hnot
      refine allocated_of_not_mem h.sound hp ?_
      intro hmem
      exact hnot ((hheld p).mpr (List.mem_append_left _ hmem))
  | ok taken =>
      obtain ⟨page, g⟩ := taken
      obtain ⟨hsound, hfree, halloc, -, -, -, -⟩ := h.sound.allocate hnext hg
      have hkept : ∀ p, q.global.allocated p = true → g.allocated p = true := by
        intro p hp
        rw [halloc, Function.update_apply, hp, ite_self]
      have hpage : g.allocated page = true := by rw [halloc, Function.update_self]
      dsimp only
      cases hadd : l.addPage g page with
      | none =>
          refine h.setLease (hsound.release _) (fun l' hl' => by cases hl') (fun p hp => hp.elim) ?_
          intro p hp hnot
          refine allocated_of_not_mem hsound (hkept p hp) ?_
          intro hmem
          rcases List.mem_append.mp hmem with hmem | hmem
          · exact hnot ((hheld p).mpr (List.mem_append_left _ hmem))
          · obtain rfl := List.mem_singleton.mp hmem
            exact absurd (hfree.symm.trans hp) Bool.false_ne_true
      | some l' =>
          have hnew : page ∉ l.pages ++ l.privates := by
            intro hmem
            have hlive := h.live ((hheld page).mpr hmem)
            exact absurd (hfree.symm.trans hlive) Bool.false_ne_true
          obtain ⟨hok, hpages, hprivates, -⟩ := (h.ok hl).addPage hbuild hnew hadd
          refine h.setLease hsound (fun l'' hl'' => Option.some.inj hl'' ▸ hok) ?_
            (fun p hp _ => hkept p hp)
          intro p hp
          change p ∈ l'.pages ++ l'.privates at hp
          rw [hpages, hprivates, List.append_assoc, List.mem_append, List.singleton_append,
            List.mem_cons] at hp
          rcases hp with hp | rfl | hp
          · have hold := (hheld p).mpr (List.mem_append_left _ hp)
            exact ⟨.inl hold, hkept p (h.live hold)⟩
          · exact ⟨.inr hfree, hpage⟩
          · have hold := (hheld p).mpr (List.mem_append_right _ hp)
            exact ⟨.inl hold, hkept p (h.live hold)⟩

/-- A lease hands out a page of its own, or borrows one. -/
theorem State.Owned.leaseAllocate (h : Owned q) {i : ι} {l l' : SharedKvPagePool} {page : ℤ}
    (hl : q.lease i = some l) (hc : l.Complete)
    (hnext : l.free ≠ [] ∨ q.global.NextIndexed)
    (halloc : l.allocatePhysicalPage q.global = .ok (page, l', g)) :
    Owned (q.setLease i (some l') g) := by
  have hheld : ∀ p, q.Holds (.inr i) p ↔ p ∈ l.pages ++ l.privates := by
    intro p
    show HeldBy (q.lease i) p ↔ _
    rw [hl]
    rfl
  rcases (h.ok hl).allocate hc halloc with
    ⟨s, -, -, rfl, hpages, hprivates, -, hok⟩ |
      ⟨hnil, hg, hpages, hprivates, -, hok⟩
  · refine h.setLease h.sound (fun l'' hl'' => Option.some.inj hl'' ▸ hok) ?_ (fun p hp _ => hp)
    intro p hp
    change p ∈ l'.pages ++ l'.privates at hp
    rw [hpages, hprivates, ← hheld] at hp
    exact ⟨.inl hp, h.live hp⟩
  · have hindexed := hnext.resolve_left (not_not.mpr hnil)
    obtain ⟨hsound, hfree, halloc, -⟩ := h.sound.allocate hindexed hg
    have hkept : ∀ p, q.global.allocated p = true → g.allocated p = true := by
      intro p hp
      rw [halloc, Function.update_apply, hp, ite_self]
    have hnew : page ∉ l.pages ++ l.privates := by
      intro hmem
      exact absurd (hfree.symm.trans (h.live ((hheld page).mpr hmem))) Bool.false_ne_true
    refine h.setLease hsound (fun l'' hl'' => Option.some.inj hl'' ▸ hok hnew) ?_
      (fun p hp _ => hkept p hp)
    intro p hp
    change p ∈ l'.pages ++ l'.privates at hp
    rw [hpages, hprivates, ← List.append_assoc, List.mem_append, List.mem_singleton] at hp
    rcases hp with hp | rfl
    · have hold := (hheld p).mpr hp
      exact ⟨.inl hold, hkept p (h.live hold)⟩
    · exact ⟨.inr hfree, by rw [halloc, Function.update_self]⟩

theorem State.Owned.leaseRelease (h : Owned q) {i : ι} {l : SharedKvPagePool}
    (hl : q.lease i = some l) (pages : List ℤ) :
    Owned (q.setLease i (some (l.releasePhysicalPages q.global pages).1)
      (l.releasePhysicalPages q.global pages).2) := by
  have hreleased := Released.list (h.ok hl) h.sound pages
  have hheld : ∀ p, q.Holds (.inr i) p ↔ p ∈ l.pages ++ l.privates := by
    intro p
    show HeldBy (q.lease i) p ↔ _
    rw [hl]
    rfl
  refine h.setLease hreleased.sound (fun l' hl' => Option.some.inj hl' ▸ hreleased.ok) ?_ ?_
  · intro p hp
    change p ∈ SharedKvPagePool.pages _ ++ _ at hp
    rw [hreleased.pages] at hp
    have hold : q.Holds (.inr i) p := by
      rw [hheld]
      rcases List.mem_append.mp hp with hp | hp
      · exact List.mem_append_left _ hp
      · exact List.mem_append_right _ (hreleased.privates p hp)
    refine ⟨.inl hold, hreleased.kept (h.live hold) ?_⟩
    intro hmem
    rcases List.mem_append.mp hp with hpages | hp
    · -- a resident page is none of the borrowed ones
      exact absurd hmem (List.disjoint_of_nodup_append (h.ok hl).nodup hpages)
    · exact hp
  · intro p hp hnot
    refine hreleased.kept hp ?_
    intro hmem
    exact absurd ((hheld p).mpr (List.mem_append_right _ hmem)) hnot

theorem State.Owned.destroy (h : Owned q) {i : ι} {l : SharedKvPagePool}
    (hl : q.lease i = some l) : Owned (q.setLease i none (l.destroy q.global)) := by
  have hheld : ∀ p, q.Holds (.inr i) p ↔ p ∈ l.pages ++ l.privates := by
    intro p
    show HeldBy (q.lease i) p ↔ _
    rw [hl]
    rfl
  have hsound := h.sound.release l.privates
  refine h.setLease (hsound.release _) (fun l' hl' => by cases hl') (fun p hp => hp.elim) ?_
  intro p hp hnot
  rw [hheld, List.mem_append, not_or] at hnot
  exact allocated_of_not_mem hsound (allocated_of_not_mem h.sound hp hnot.2) hnot.1

end Leases

theorem State.Owned.step [DecidableEq κ] [DecidableEq ι] (h : Owned q) {a : Action κ ι}
    (ha : Disciplined q a) (hu : Moves q a u) : Owned u := by
  cases hu with
  | allocate hnext hg => exact h.allocate hnext hg
  | release k pages => exact h.release ha
  | @pin pages hout =>
      refine h.setGlobal (h.sound.pin fun p hp => (hout p hp).1) ?_
      intro p hp
      rw [(q.global.pinPages_kept pages).1]
      exact hp
  | unpin pages =>
      refine h.setGlobal (h.sound.unpin pages) ?_
      intro p hp
      rw [(q.global.unpinPages_kept pages).1]
      exact hp
  | @openLease i resident reserve label hnone hquota =>
      refine h.setLease h.sound ?_ ?_ (fun p hp _ => hp)
      · intro l hl
        obtain rfl := Option.some.inj hl
        exact .opened label hquota
      · intro p hp
        exact absurd hp List.not_mem_nil
  | acquire hl hbuild hnext => exact h.acquire hl hbuild hnext
  | leaseAllocate hl hc hnext halloc => exact h.leaseAllocate hl hc hnext halloc
  | leaseRelease pages hl hc => exact h.leaseRelease hl pages
  | @setTransient i l enabled hl hc =>
      refine h.setLease h.sound ?_ ?_ (fun p hp _ => hp)
      · intro l' hl'
        obtain rfl := Option.some.inj hl'
        have hok := h.ok hl
        exact ⟨hok.nodup, hok.slots_iff, hok.length_le, hok.privates_le, hok.used_lt, hok.free,
          hok.building⟩
      · intro p hp
        have hold : q.Holds (.inr i) p := by
          show HeldBy (q.lease i) p
          rw [hl]
          exact hp
        exact ⟨.inl hold, h.live hold⟩
  | destroy hl hc => exact h.destroy hl

end Owned

/-! ## Every run -/

section Steps

variable {q u : State κ ι}

theorem sound_allocatePhysicalPage {l l' : SharedKvPagePool} {g g' : GlobalKvPagePool} {page : ℤ}
    (hg : g.Sound) (hnext : l.free ≠ [] ∨ g.NextIndexed)
    (h : l.allocatePhysicalPage g = .ok (page, l', g')) :
    g'.Sound ∧ g'.totalPages = g.totalPages := by
  unfold SharedKvPagePool.allocatePhysicalPage at h
  split at h
  · obtain ⟨-, hrest⟩ := Prod.mk.inj (Except.ok.inj h)
    obtain ⟨-, rfl⟩ := Prod.mk.inj hrest
    exact ⟨hg, rfl⟩
  · next hnil =>
      split_ifs at h
      cases halloc : g.allocatePhysicalPage with
      | error e => rw [halloc] at h; cases h
      | ok taken =>
          rw [halloc] at h
          obtain ⟨-, hrest⟩ := Prod.mk.inj (Except.ok.inj h)
          obtain ⟨-, rfl⟩ := Prod.mk.inj hrest
          obtain ⟨hsound, -, -, -, -, htotal, -⟩ :=
            hg.allocate (hnext.resolve_left (not_not.mpr hnil)) halloc
          exact ⟨hsound, htotal⟩

theorem sound_releasePhysicalPages {l : SharedKvPagePool} (hg : g.Sound)
    (pages : List ℤ) : (l.releasePhysicalPages g pages).2.Sound ∧
      (l.releasePhysicalPages g pages).2.totalPages = g.totalPages := by
  unfold SharedKvPagePool.releasePhysicalPages
  induction pages generalizing l g with
  | nil => exact ⟨hg, rfl⟩
  | cons page pages ih =>
      have hone : (l.releasePage g page).2.Sound ∧
          (l.releasePage g page).2.totalPages = g.totalPages := by
        unfold SharedKvPagePool.releasePage
        split
        · split_ifs
          · exact ⟨hg, rfl⟩
          · exact ⟨hg, rfl⟩
        · split_ifs
          · exact ⟨hg.release _, (g.releasePhysicalPages_kept _).2⟩
          · exact ⟨hg, rfl⟩
      obtain ⟨hsound, htotal⟩ := ih hone.1
      exact ⟨hsound, htotal.trans hone.2⟩

/-- The global pool is kept in order by every step. -/
theorem sound_step [DecidableEq κ] [DecidableEq ι] (h : q.global.Sound) {a : Action κ ι}
    (hu : Moves q a u) : u.global.Sound ∧ u.global.totalPages = q.global.totalPages := by
  have hrelease : ∀ {g : GlobalKvPagePool}, g.Sound → g.totalPages = q.global.totalPages →
      ∀ pages, (g.releasePhysicalPages pages).Sound ∧
        (g.releasePhysicalPages pages).totalPages = q.global.totalPages := by
    intro g hg htotal pages
    exact ⟨hg.release pages, (g.releasePhysicalPages_kept pages).2.trans htotal⟩
  cases hu with
  | allocate hnext hg =>
      obtain ⟨hsound, -, -, -, -, htotal, -⟩ := h.allocate hnext hg
      exact ⟨hsound, htotal⟩
  | release k pages => exact hrelease h rfl pages
  | @pin pages hout =>
      exact ⟨h.pin fun p hp => (hout p hp).1, (q.global.pinPages_kept pages).2.2.1⟩
  | unpin pages => exact ⟨h.unpin pages, (q.global.unpinPages_kept pages).2.2.1⟩
  | openLease hnone hquota => exact ⟨h, rfl⟩
  | @acquire i l hl hbuild hnext =>
      unfold State.acquire
      cases hg : q.global.allocatePhysicalPage with
      | error e => exact hrelease h rfl l.pages
      | ok taken =>
          obtain ⟨page, g⟩ := taken
          obtain ⟨hsound, -, -, -, -, htotal, -⟩ := h.allocate hnext hg
          dsimp only
          cases l.addPage g page with
          | none => exact hrelease hsound htotal _
          | some l' => exact ⟨hsound, htotal⟩
  | leaseAllocate hl hc hnext halloc => exact sound_allocatePhysicalPage h hnext halloc
  | leaseRelease pages hl hc => exact sound_releasePhysicalPages h pages
  | setTransient enabled hl hc => exact ⟨h, rfl⟩
  | @destroy i l hl hc =>
      obtain ⟨hsound, htotal⟩ := hrelease h rfl l.privates
      exact hrelease hsound htotal l.pages

/-- No page that a lease may hand out is pinned. -/
def State.Unpinned (q : State κ ι) : Prop :=
  ∀ i l s p, q.lease i = some l → l.pages[s]? = some p → l.inUse s = false →
    q.global.pagePinRefcount p = 0

/-- A lease changes, and the pins of the others' pages do not. -/
theorem State.Unpinned.setLease [DecidableEq ι] (h : q.Unpinned) {i : ι}
    {l : Option SharedKvPagePool}
    (hpins : g.pagePinRefcount = q.global.pagePinRefcount)
    (hself : ∀ l' s p, l = some l' → l'.pages[s]? = some p → l'.inUse s = false →
      q.global.pagePinRefcount p = 0) : (q.setLease i l g).Unpinned := by
  intro j l' s p hl' hp hs
  change Function.update q.lease i l j = some l' at hl'
  show g.pagePinRefcount p = 0
  rw [hpins]
  rcases eq_or_ne j i with rfl | hne
  · rw [Function.update_self] at hl'
    exact hself l' s p hl' hp hs
  · rw [Function.update_of_ne hne] at hl'
    exact h j l' s p hl' hp hs

theorem State.Unpinned.step [DecidableEq κ] [DecidableEq ι] (h : q.Unpinned) (hq : q.Owned)
    {a : Action κ ι} (ha : Retaining q a) (hu : Moves q a u) : u.Unpinned := by
  cases hu with
  | allocate hnext hg =>
      intro i l s p hl hp hs
      obtain ⟨-, -, -, -, hpins, -, -⟩ := hq.sound.allocate hnext hg
      show GlobalKvPagePool.pagePinRefcount _ p = 0
      rw [hpins]
      exact h _ _ _ _ hl hp hs
  | release k pages =>
      intro i l s p hl hp hs
      show (q.global.releasePhysicalPages pages).pagePinRefcount p = 0
      rw [(q.global.releasePhysicalPages_kept pages).1]
      exact h _ _ _ _ hl hp hs
  | @pin pages hout =>
      intro i l s p hl hp hs
      have hslot : l.slots p = some s := (hq.ok hl).slots_iff.mpr hp
      have hidle : q.Idle i p = true := by
        unfold State.Idle
        change q.lease i = some l at hl
        rw [hl]
        dsimp only
        rw [hslot]
        dsimp only
        rw [hs]
        rfl
      have hmem : p ∉ pages := fun hmem =>
        absurd (((hout p hmem).2 i).symm.trans hidle) Bool.false_ne_true
      exact ((q.global.pinPages_kept pages).2.2.2.2 p hmem).trans (h _ _ _ _ hl hp hs)
  | unpin pages =>
      intro i l s p hl hp hs
      exact (q.global.unpinPages_kept pages).2.2.2.2 p (h _ _ _ _ hl hp hs)
  | openLease hnone hquota =>
      refine h.setLease rfl ?_
      intro l' s p hl' hp hs
      obtain rfl := Option.some.inj hl'
      cases hp
  | @acquire i l hl hbuild hnext =>
      unfold State.acquire
      cases hg : q.global.allocatePhysicalPage with
      | error e =>
          exact h.setLease (q.global.releasePhysicalPages_kept _).1 fun _ _ _ hl' => by cases hl'
      | ok taken =>
          obtain ⟨page, g⟩ := taken
          obtain ⟨hsound, hfree, -, hpin, hpins, -, -⟩ := hq.sound.allocate hnext hg
          dsimp only
          cases hadd : l.addPage g page with
          | none =>
              exact h.setLease ((g.releasePhysicalPages_kept _).1.trans hpins)
                fun _ _ _ hl' => by cases hl'
          | some l' =>
              have hnew : page ∉ l.pages ++ l.privates := by
                intro hmem
                have hheld : q.Holds (.inr i) page := by
                  show HeldBy (q.lease i) page
                  rw [hl]
                  exact hmem
                exact absurd (hfree.symm.trans (hq.live hheld)) Bool.false_ne_true
              obtain ⟨-, hpages, -, hused⟩ := (hq.ok hl).addPage hbuild hnew hadd
              refine h.setLease hpins ?_
              intro l'' s p hl'' hp hs
              obtain rfl := Option.some.inj hl''
              rw [hused] at hs
              rw [hpages, List.getElem?_append] at hp
              split_ifs at hp with hlt
              · exact h _ _ _ _ hl hp hs
              · obtain rfl := List.mem_singleton.mp (List.mem_of_getElem? hp)
                exact hpin
  | @leaseAllocate i l l' page g hl hc hnext halloc =>
      rcases (hq.ok hl).allocate hc halloc with
        ⟨t, -, -, rfl, hpages, -, hused, -⟩ | ⟨-, hg, hpages, -, hused, -⟩
      · refine h.setLease rfl ?_
        intro l'' s p hl'' hp hs
        obtain rfl := Option.some.inj hl''
        rw [hpages] at hp
        rw [hused] at hs
        rcases eq_or_ne s t with rfl | hne
        · rw [Function.update_self] at hs
          cases hs
        · rw [Function.update_of_ne hne] at hs
          exact h _ _ _ _ hl hp hs
      · have hpins : g.pagePinRefcount = q.global.pagePinRefcount := by
          unfold GlobalKvPagePool.allocatePhysicalPage at hg
          split at hg
          · obtain ⟨-, rfl⟩ := Prod.mk.inj (Except.ok.inj hg)
            rfl
          · cases hg
        refine h.setLease hpins ?_
        intro l'' s p hl'' hp hs
        obtain rfl := Option.some.inj hl''
        rw [hpages] at hp
        rw [hused] at hs
        exact h _ _ _ _ hl hp hs
  | @leaseRelease i l pages hl hc =>
      have hreleased := Released.list (hq.ok hl) hq.sound pages
      refine h.setLease hreleased.pins ?_
      intro l'' s p hl'' hp hs
      obtain rfl := Option.some.inj hl''
      rw [hreleased.pages] at hp
      cases hbefore : l.inUse s with
      | false => exact h _ _ _ _ hl hp hbefore
      | true =>
          -- the slot was given back with its page in the list
          obtain ⟨p', hmem, hslot⟩ := hreleased.freed hs hbefore
          have hp' := (hq.ok hl).slots_iff.mp hslot
          obtain rfl : p' = p := Option.some.inj (hp'.symm.trans hp)
          refine ha p' hmem ?_
          show ResidentIn (q.lease i) p'
          rw [hl]
          exact List.mem_of_getElem? hp'
  | @setTransient i l enabled hl hc =>
      refine h.setLease rfl ?_
      intro l' s p hl' hp hs
      obtain rfl := Option.some.inj hl'
      exact h _ _ _ _ hl hp hs
  | @destroy i l hl hc =>
      refine h.setLease ?_ fun _ _ _ hl' => by cases hl'
      exact ((GlobalKvPagePool.releasePhysicalPages_kept _ _).1).trans
        (q.global.releasePhysicalPages_kept _).1

end Steps

section Runs

variable [DecidableEq κ] [DecidableEq ι] [Fintype ι] {totalPages : BitVec 32} {pageSize : ℕ}

theorem sound_invariant : (machine κ ι totalPages pageSize).Invariant fun q =>
    q.global.Sound ∧ q.global.totalPages = totalPages.toNat where
  init q hq := by
    obtain rfl : q = _ := hq
    exact ⟨.initial pageSize totalPages.isLt.le, rfl⟩
  step q a u hq hu := by
    obtain ⟨hsound, htotal⟩ := sound_step hq.1 (moves_of_step hu)
    exact ⟨hsound, htotal.trans hq.2⟩

variable [Fintype κ]

theorem owned_invariant :
    ((machine κ ι totalPages pageSize).restrict Disciplined).Invariant State.Owned where
  init q hq := by
    obtain rfl : q = _ := hq
    refine ⟨.initial pageSize totalPages.isLt.le, (fun hl => by cases hl), ?_, ?_⟩
    · intro o p hp
      cases o with
      | inl k => cases hp
      | inr i => exact hp.elim
    · intro o o' p hp
      cases o with
      | inl k => cases hp
      | inr i => exact hp.elim
  step q a u hq hu := by
    obtain ⟨ha, hu⟩ := Machine.restrict_step.mp hu
    exact hq.step ha (moves_of_step hu)

theorem unpinned_invariant : ((machine κ ι totalPages pageSize).restrict fun q a =>
    Disciplined q a ∧ Retaining q a).Invariant fun q => q.Owned ∧ q.Unpinned where
  init q hq := by
    refine ⟨owned_invariant.init q hq, ?_⟩
    obtain rfl : q = _ := hq
    intro i l s p hl
    cases hl
  step q a u hq hu := by
    obtain ⟨ha, hu⟩ := Machine.restrict_step.mp hu
    have hmoves := moves_of_step hu
    exact ⟨hq.1.step ha.1 hmoves, hq.2.step hq.1 ha.2 hmoves⟩

end Runs

/-- What a lease returns is a resident page of its own that is not in use, or a page
that the global pool had free. -/
theorem State.Owned.returned {q : State κ ι} (h : q.Owned) {i : ι} {l l' : SharedKvPagePool}
    {page : ℤ} (hl : q.lease i = some l) (hc : l.Complete)
    (hnext : l.free ≠ [] ∨ q.global.NextIndexed)
    (halloc : l.allocatePhysicalPage q.global = .ok (page, l', g)) :
    (∃ s, l.pages[s]? = some page ∧ l.inUse s = false) ∨
      q.global.allocated page = false ∧ q.global.pagePinRefcount page = 0 := by
  rcases (h.ok hl).allocate hc halloc with ⟨s, hs, hunused, -⟩ | ⟨hnil, hg, -⟩
  · exact .inl ⟨s, hs, hunused⟩
  · obtain ⟨-, hfree, -, hpin, -⟩ :=
      h.sound.allocate (hnext.resolve_left (not_not.mpr hnil)) hg
    exact .inr ⟨hfree, hpin⟩

/-- What a lease counts. -/
theorem SharedKvPagePool.Ok.count {l : SharedKvPagePool} (h : l.Ok) (hc : l.Complete)
    (g : GlobalKvPagePool) : l.usedPages + l.freePages g =
      l.resident + l.privates.length +
        if l.transient then min (l.reserve - l.privates.length) g.freePages.length else 0 := by
  obtain ⟨hnodup, hfree⟩ := h.free hc
  have hle : l.free.length ≤ l.resident := by
    have hsub : l.free.Subperm (List.range l.resident) := by
      apply hnodup.subperm
      intro s hs
      exact List.mem_range.mpr ((hfree s).mp hs).1
    have hle := hsub.length_le
    rwa [List.length_range] at hle
  unfold usedPages SharedKvPagePool.freePages
  omega

/-- For every run over a global pool, leases on it and other parties.

Where nobody releases another one's page on the global pool: no page has two
holders, a held page is not free, a lease has each of its pages once and hands out a
page that is not in use or was free; it counts its resident and borrowed pages, and
within a transient allocation what it can still borrow.  In every run the global
pool counts all its pages and hands out no pinned page, and when nothing is pinned a
release of all that is allocated leaves all pages free.  Where moreover no lease is
given back a resident page while it is pinned, no pool hands out a pinned page. -/
theorem pagePools (κ ι : Type) [DecidableEq κ] [DecidableEq ι] [Fintype κ] [Fintype ι]
    (totalPages : BitVec 32) (pageSize : ℕ) :
    (∀ q : State κ ι, ((machine κ ι totalPages pageSize).restrict Disciplined).Reachable q →
      (∀ o o' p, q.Holds o p → q.Holds o' p → o = o') ∧
      (∀ o p, q.Holds o p → p ∉ q.global.freePages) ∧
      (∀ i l, q.lease i = some l → (l.pages ++ l.privates).Nodup) ∧
      (∀ i l, q.lease i = some l → l.Complete → l.usedPages + l.freePages q.global =
        l.resident + l.privates.length +
          if l.transient then min (l.reserve - l.privates.length) q.global.freePages.length
          else 0) ∧
      (∀ i l page l' g, q.lease i = some l → l.Complete → l.free ≠ [] ∨ q.global.NextIndexed →
        l.allocatePhysicalPage q.global = .ok (page, l', g) →
        (∃ s, l.pages[s]? = some page ∧ l.inUse s = false) ∨
          q.global.allocated page = false ∧ q.global.pagePinRefcount page = 0)) ∧
    (∀ q : State κ ι, (machine κ ι totalPages pageSize).Reachable q →
      q.global.freePages.length + q.global.usedPages = totalPages.toNat ∧
      (∀ page g, q.global.NextIndexed → q.global.allocatePhysicalPage = .ok (page, g) →
        q.global.pagePinRefcount page = 0) ∧
      (∀ pages, (∀ p, q.global.pagePinRefcount p = 0) →
        (∀ p, q.global.allocated p = true → p ∈ pages) →
        (q.global.releasePhysicalPages pages).freePages.Perm (freshSlots totalPages.toNat))) ∧
    (∀ q : State κ ι, ((machine κ ι totalPages pageSize).restrict fun q a =>
        Disciplined q a ∧ Retaining q a).Reachable q →
      ∀ i l page l' g, q.lease i = some l → l.Complete → l.free ≠ [] ∨ q.global.NextIndexed →
        l.allocatePhysicalPage q.global = .ok (page, l', g) →
        q.global.pagePinRefcount page = 0) := by
  refine ⟨?_, ?_, ?_⟩
  · intro q hq
    have howned := owned_invariant.reachable hq
    refine ⟨fun o o' p => howned.unique, ?_, fun i l hl => (howned.ok hl).nodup, ?_, ?_⟩
    · intro o p hp
      exact howned.sound.not_mem (howned.live hp)
    · intro i l hl hc
      exact (howned.ok hl).count hc q.global
    · intro i l page l' g hl hc hnext halloc
      exact howned.returned hl hc hnext halloc
  · intro q hq
    obtain ⟨hsound, htotal⟩ := sound_invariant.reachable hq
    refine ⟨hsound.count.trans htotal, ?_, ?_⟩
    · intro page g hnext hg
      exact (hsound.allocate hnext hg).2.2.2.1
    · intro pages hpins hall
      have hperm := (hsound.release pages).perm ?_
      · rwa [(q.global.releasePhysicalPages_kept pages).2, htotal] at hperm
      · intro p
        by_contra hp
        obtain ⟨hp, hpinned⟩ := (hsound.allocated_release pages p).mp (Bool.not_eq_false _ ▸ hp)
        exact absurd (hpinned (hall p hp)) (by rw [hpins p]; exact lt_irrefl 0)
  · intro q hq i l page l' g hl hc hnext halloc
    obtain ⟨howned, hunpinned⟩ := unpinned_invariant.reachable hq
    rcases howned.returned hl hc hnext halloc with ⟨s, hs, hunused⟩ | ⟨-, hpin⟩
    · exact hunpinned i l s page hl hs hunused
    · exact hpin

/-- A lease's page is handed out and pinned: it is the lease's alone. -/
theorem pagePools_pinned : ∃ q, (machine (Fin 1) (Fin 1) 2 16).Reachable q ∧
    0 < q.global.pagePinRefcount 0 ∧ q.Holds (.inr 0) 0 ∧ ¬ q.Holds (.inl 0) 0 := by
  have hrun : (((machine (Fin 1) (Fin 1) 2 16).restrict Disciplined).run
      ⟨.initial 2 16, fun _ => none, fun _ _ => false⟩
      [.openLease 0 1 0 "a", .acquire 0, .leaseAllocate 0, .pin [0], .allocate 0]).any
      (fun q => decide (0 < q.global.pagePinRefcount 0 ∧ q.Holds (.inr 0) 0)) = true := by
    decide +kernel
  obtain ⟨q, hreach, hcheck⟩ := Machine.exists_reachable rfl hrun
  obtain ⟨hpin, hheld⟩ := of_decide_eq_true hcheck
  refine ⟨q, Machine.restrict_reachable hreach, hpin, hheld, ?_⟩
  intro hparty
  cases ((pagePools (Fin 1) (Fin 1) 2 16).1 q hreach).1 _ _ _ hheld hparty

/-! ## Where it does not hold -/

/-- A page of a lease is released on the global pool and taken by a party; a lease
does not count its reserve; and a lease hands out a pinned page that it was given
back. -/
theorem pagePools_broken :
    (∃ q, (machine (Fin 1) (Fin 1) 2 16).Reachable q ∧ q.Holds (.inl 0) 0 ∧ q.Holds (.inr 0) 0) ∧
    (∃ q l, (machine (Fin 1) (Fin 1) 2 16).Reachable q ∧ q.lease 0 = some l ∧ l.Complete ∧
      l.freePages q.global + l.usedPages ≠ l.totalPages) ∧
    (∃ q l page l' g, (machine (Fin 1) (Fin 1) 2 16).Reachable q ∧ q.lease 0 = some l ∧
      l.Complete ∧ l.allocatePhysicalPage q.global = .ok (page, l', g) ∧
      0 < q.global.pagePinRefcount page) := by
  have hinit : (machine (Fin 1) (Fin 1) 2 16).init
    ⟨.initial 2 16, fun _ => none, fun _ _ => false⟩ := rfl
  refine ⟨?_, ?_, ?_⟩
  · have hrun : ((machine (Fin 1) (Fin 1) 2 16).run
        ⟨.initial 2 16, fun _ => none, fun _ _ => false⟩
        [.openLease 0 1 0 "a", .acquire 0, .release 0 [0], .allocate 0]).any
        (fun q => decide (q.Holds (.inl 0) 0 ∧ q.Holds (.inr 0) 0)) = true := by decide +kernel
    obtain ⟨q, hreach, hcheck⟩ := Machine.exists_reachable hinit hrun
    exact ⟨q, hreach, of_decide_eq_true hcheck⟩
  · have hrun : ((machine (Fin 1) (Fin 1) 2 16).run
        ⟨.initial 2 16, fun _ => none, fun _ _ => false⟩
        [.openLease 0 1 1 "a", .acquire 0]).any
        (fun q => (q.lease 0).any fun l => decide (l.Complete ∧
          l.freePages q.global + l.usedPages ≠ l.totalPages)) = true := by decide +kernel
    obtain ⟨q, hreach, hcheck⟩ := Machine.exists_reachable hinit hrun
    obtain ⟨l, hl, hcheck⟩ := (Option.any_eq_true _ _).mp hcheck
    exact ⟨q, l, hreach, hl, of_decide_eq_true hcheck⟩
  · have hrun : ((machine (Fin 1) (Fin 1) 2 16).run
        ⟨.initial 2 16, fun _ => none, fun _ _ => false⟩
        [.openLease 0 1 0 "a", .acquire 0, .leaseAllocate 0, .pin [0], .leaseRelease 0 [0]]).any
        (fun q => (q.lease 0).any fun l => decide l.Complete &&
          match l.allocatePhysicalPage q.global with
          | .ok (page, _, _) => decide (0 < q.global.pagePinRefcount page)
          | .error _ => false) = true := by decide +kernel
    obtain ⟨q, hreach, hcheck⟩ := Machine.exists_reachable hinit hrun
    obtain ⟨l, hl, hcheck⟩ := (Option.any_eq_true _ _).mp hcheck
    obtain ⟨hc, hcheck⟩ := (Bool.and_eq_true _ _).mp hcheck
    cases halloc : l.allocatePhysicalPage q.global with
    | error e => rw [halloc] at hcheck; cases hcheck
    | ok taken =>
        rw [halloc] at hcheck
        exact ⟨q, l, _, _, _, hreach, hl, of_decide_eq_true hc, halloc,
          of_decide_eq_true hcheck⟩

end Qw3.Pages
