import Qw3.Pages.GlobalPool

/-!
# Leases over the global page pool

* `SharedKvPagePool` and its operations — the source's (`shared_kv_page_pool.hpp`).
* `SharedKvPagePool.Ok` — a lease has each of its pages once, and hands out the
  ones that are not in use.
* `Released` — what a release does to a lease and to the pool below it.
-/

namespace Qw3.Pages

/-- `SharedKvPagePool`.  The back of `free_` is first. -/
structure SharedKvPagePool where
  resident : ℕ
  reserve : ℕ
  label : String
  pages : List ℤ := []
  privates : List ℤ := []
  free : List ℕ := []
  inUse : ℕ → Bool := fun _ => false
  slots : ℤ → Option ℕ := fun _ => none
  transient : Bool := false

namespace SharedKvPagePool

/-- The check at the head of the constructor. -/
def ValidQuota (resident reserve : ℕ) : Prop := 0 < resident ∧ resident + reserve ≤ 2 ^ 31 - 1

instance (resident reserve : ℕ) : Decidable (ValidQuota resident reserve) :=
  inferInstanceAs (Decidable (_ ∧ _))

variable (l : SharedKvPagePool) (g : GlobalKvPagePool)

/-- The constructor has all its resident pages. -/
def Complete : Prop := l.pages.length = l.resident

instance : Decidable l.Complete := inferInstanceAs (Decidable (_ = _))

/-- The constructor's loop takes up a page, after the last one it fills `free_`; it
throws at a page that is no physical page or that it has. -/
def addPage (page : ℤ) : Option SharedKvPagePool :=
  if page < 0 ∨ g.totalPages ≤ page ∨ (l.slots page).isSome then none
  else
    some { l with
      pages := l.pages ++ [page]
      slots := Function.update l.slots page (some l.pages.length)
      free := if l.pages.length + 1 = l.resident then List.range l.resident else l.free }

/-- The destructor: what is left of the pool below. -/
def destroy : GlobalKvPagePool := (g.releasePhysicalPages l.privates).releasePhysicalPages l.pages

/-- `allocate_physical_page`. -/
def allocatePhysicalPage : Except String (ℤ × SharedKvPagePool × GlobalKvPagePool) :=
  match l.free with
  | slot :: rest =>
      .ok (l.pages.getD slot (-1),
        { l with free := rest, inUse := Function.update l.inUse slot true }, g)
  | [] =>
      if l.transient ∧ l.privates.length < l.reserve then
        match g.allocatePhysicalPage with
        | .ok (page, g) => .ok (page, { l with privates := l.privates ++ [page] }, g)
        | .error e => .error e
      else
        .error ("shared KVMem request page quota exhausted: pool=" ++ l.label ++
          " resident=" ++ toString l.resident ++ " reserve=" ++ toString l.reserve)

/-- The body of the loop of `release_physical_pages`. -/
def releasePage (page : ℤ) : SharedKvPagePool × GlobalKvPagePool :=
  match l.slots page with
  | some slot =>
      if l.inUse slot then
        ({ l with inUse := Function.update l.inUse slot false, free := slot :: l.free }, g)
      else (l, g)
  | none =>
      if page ∈ l.privates then
        ({ l with privates := l.privates.erase page }, g.releasePhysicalPages [page])
      else (l, g)

/-- `release_physical_pages`. -/
def releasePhysicalPages (pages : List ℤ) : SharedKvPagePool × GlobalKvPagePool :=
  pages.foldl (fun x page => x.1.releasePage x.2 page) (l, g)

/-- `free_pages`. -/
def freePages : ℕ :=
  l.free.length +
    if l.transient then min (l.reserve - l.privates.length) g.freePages.length else 0

/-- `used_pages`. -/
def usedPages : ℕ := l.resident - l.free.length + l.privates.length

/-- `total_pages`. -/
def totalPages : ℕ := l.resident + l.reserve

/-! ## The invariant -/

/-- A lease: its pages are apart; its free slots are those that are not in use. -/
structure Ok (l : SharedKvPagePool) : Prop where
  nodup : (l.pages ++ l.privates).Nodup
  slots_iff : ∀ {p s}, l.slots p = some s ↔ l.pages[s]? = some p
  length_le : l.pages.length ≤ l.resident
  privates_le : l.privates.length ≤ l.reserve
  used_lt : ∀ {s}, l.inUse s = true → s < l.resident ∧ l.Complete
  free : l.Complete → l.free.Nodup ∧ ∀ s, s ∈ l.free ↔ s < l.resident ∧ l.inUse s = false
  building : ¬ l.Complete → l.free = []

theorem Ok.opened {resident reserve : ℕ} (label : String) (h : ValidQuota resident reserve) :
    Ok { resident, reserve, label } where
  nodup := List.nodup_nil
  slots_iff := by simp
  length_le := Nat.zero_le _
  privates_le := Nat.zero_le _
  used_lt hs := by cases hs
  free hc := absurd hc (Nat.ne_of_lt h.1)
  building _ := rfl

section Ok

variable {l g} (h : Ok l)
include h

/-- A page that is new to a lease is added to it. -/
theorem Ok.addPage {page : ℤ} {l' : SharedKvPagePool} (hbuild : l.pages.length < l.resident)
    (hnew : page ∉ l.pages ++ l.privates) (hl : l.addPage g page = some l') :
    Ok l' ∧ l'.pages = l.pages ++ [page] ∧ l'.privates = l.privates ∧ l'.inUse = l.inUse := by
  unfold SharedKvPagePool.addPage at hl
  split at hl
  · cases hl
  · obtain rfl := Option.some.inj hl
    have hnotComplete : ¬ l.Complete := Nat.ne_of_lt hbuild
    have hunused : ∀ s, l.inUse s = false := by
      intro s
      by_contra hs
      exact hnotComplete (h.used_lt (Bool.not_eq_false _ ▸ hs)).2
    refine ⟨⟨?_, ?_, ?_, h.privates_le, ?_, ?_, ?_⟩, rfl, rfl, rfl⟩
    · show (l.pages ++ [page] ++ l.privates).Nodup
      rw [List.append_assoc, List.singleton_append, List.nodup_middle, List.nodup_cons]
      exact ⟨hnew, h.nodup⟩
    · intro p s
      show Function.update l.slots page (some l.pages.length) p = some s ↔
        (l.pages ++ [page])[s]? = some p
      rcases eq_or_ne p page with rfl | hne
      · rw [Function.update_self, Option.some_inj]
        have hfresh : ∀ t, l.pages[t]? ≠ some p := fun t ht =>
          hnew (List.mem_append_left _ (List.mem_of_getElem? ht))
        constructor
        · rintro rfl
          exact List.getElem?_concat_length
        · intro hs
          rw [List.getElem?_append] at hs
          split_ifs at hs with hlt
          · exact absurd hs (hfresh s)
          · have hzero := (List.getElem?_eq_some_iff.mp hs).1
            rw [List.length_singleton] at hzero
            omega
      · rw [Function.update_of_ne hne, h.slots_iff, List.getElem?_append]
        split_ifs with hlt
        · rfl
        · refine iff_of_false ?_ ?_
          · intro hs
            exact hlt (List.getElem?_eq_some_iff.mp hs).1
          · intro hs
            exact hne (List.mem_singleton.mp (List.mem_of_getElem? hs))
    · show (l.pages ++ [page]).length ≤ l.resident
      rw [List.length_append, List.length_singleton]
      exact hbuild
    · intro s hs
      rw [hunused s] at hs
      cases hs
    · intro hcomplete
      have hlen : l.pages.length + 1 = l.resident := by
        have hcomplete : (l.pages ++ [page]).length = l.resident := hcomplete
        rwa [List.length_append, List.length_singleton] at hcomplete
      rw [if_pos hlen]
      refine ⟨List.nodup_range, ?_⟩
      intro s
      rw [List.mem_range, and_iff_left (hunused s)]
    · intro hnot
      have hlen : ¬ l.pages.length + 1 = l.resident := by
        intro hlen
        apply hnot
        show (l.pages ++ [page]).length = l.resident
        rw [List.length_append, List.length_singleton, hlen]
      exact (if_neg hlen).trans (h.building hnotComplete)

/-- A lease hands out a page of its own that is not in use, or borrows one. -/
theorem Ok.allocate {page : ℤ} {l' : SharedKvPagePool} {g' : GlobalKvPagePool}
    (hc : l.Complete) (hl : l.allocatePhysicalPage g = .ok (page, l', g')) :
    (∃ s, l.pages[s]? = some page ∧ l.inUse s = false ∧ g' = g ∧
      l'.pages = l.pages ∧ l'.privates = l.privates ∧
      l'.inUse = Function.update l.inUse s true ∧ Ok l') ∨
    (l.free = [] ∧ g.allocatePhysicalPage = .ok (page, g') ∧ l'.pages = l.pages ∧
      l'.privates = l.privates ++ [page] ∧ l'.inUse = l.inUse ∧
      (page ∉ l.pages ++ l.privates → Ok l')) := by
  unfold allocatePhysicalPage at hl
  obtain ⟨hfreeNodup, hfree⟩ := h.free hc
  split at hl
  · next slot rest heq =>
      left
      obtain ⟨rfl, hrest⟩ := Prod.mk.inj (Except.ok.inj hl)
      obtain ⟨rfl, rfl⟩ := Prod.mk.inj hrest
      obtain ⟨hlt, hunused⟩ := (hfree slot).mp (heq ▸ List.mem_cons_self)
      rw [heq] at hfreeNodup
      obtain ⟨hnot, hrestNodup⟩ := List.nodup_cons.mp hfreeNodup
      have hslot : slot < l.pages.length := hc.symm ▸ hlt
      refine ⟨slot, ?_, hunused, rfl, rfl, rfl, rfl, ?_⟩
      · simp [List.getD, List.getElem?_eq_getElem hslot]
      · refine ⟨h.nodup, h.slots_iff, h.length_le, h.privates_le, ?_, ?_, ?_⟩
        · intro s hs
          rcases eq_or_ne s slot with rfl | hne
          · exact ⟨hlt, hc⟩
          · change Function.update l.inUse slot true s = true at hs
            rw [Function.update_of_ne hne] at hs
            exact ⟨(h.used_lt hs).1, hc⟩
        · intro _
          refine ⟨hrestNodup, ?_⟩
          intro s
          show s ∈ rest ↔ s < l.resident ∧ Function.update l.inUse slot true s = false
          rcases eq_or_ne s slot with rfl | hne
          · rw [Function.update_self]
            exact iff_of_false hnot (fun hs => Bool.noConfusion hs.2)
          · rw [Function.update_of_ne hne, ← hfree, heq, List.mem_cons, or_iff_right hne]
        · intro hnotComplete
          exact absurd hc hnotComplete
  · next heq =>
      right
      split_ifs at hl with hborrow
      cases hg : g.allocatePhysicalPage with
      | error e => rw [hg] at hl; cases hl
      | ok taken =>
          rw [hg] at hl
          obtain ⟨rfl, hrest⟩ := Prod.mk.inj (Except.ok.inj hl)
          obtain ⟨rfl, rfl⟩ := Prod.mk.inj hrest
          refine ⟨heq, rfl, rfl, rfl, rfl, ?_⟩
          intro hnew
          refine ⟨?_, h.slots_iff, h.length_le, ?_, h.used_lt, h.free, h.building⟩
          · show (l.pages ++ (l.privates ++ [taken.1])).Nodup
            rw [← List.append_assoc]
            exact List.concat_eq_append ▸ h.nodup.concat hnew
          · show (l.privates ++ [taken.1]).length ≤ l.reserve
            rw [List.length_append, List.length_singleton]
            exact hborrow.2

end Ok

end SharedKvPagePool

/-! ## Releases -/

open SharedKvPagePool

/-- What a release leaves of a lease and of the pool below it. -/
structure Released (listed : List ℤ) (l : SharedKvPagePool) (g : GlobalKvPagePool)
    (l' : SharedKvPagePool) (g' : GlobalKvPagePool) : Prop where
  ok : l'.Ok
  sound : g'.Sound
  pages : l'.pages = l.pages
  privates : ∀ p ∈ l'.privates, p ∈ l.privates
  kept : ∀ {p}, g.allocated p = true → (p ∈ l.privates → p ∈ l'.privates) → g'.allocated p = true
  pins : g'.pagePinRefcount = g.pagePinRefcount
  freed : ∀ {s}, l'.inUse s = false → l.inUse s = true → ∃ p ∈ listed, l.slots p = some s
  slots : l'.slots = l.slots
  complete : l'.Complete ↔ l.Complete

theorem Released.refl {l : SharedKvPagePool} {g : GlobalKvPagePool} (hl : l.Ok) (hg : g.Sound)
    (listed : List ℤ) : Released listed l g l g where
  ok := hl
  sound := hg
  pages := rfl
  privates _ hp := hp
  kept hp _ := hp
  pins := rfl
  freed hs hs' := absurd (hs.symm.trans hs') Bool.false_ne_true
  slots := rfl
  complete := Iff.rfl

/-- One page is released. -/
theorem Released.page {l : SharedKvPagePool} {g : GlobalKvPagePool} (hl : l.Ok) (hg : g.Sound)
    (page : ℤ) : Released [page] l g (l.releasePage g page).1 (l.releasePage g page).2 := by
  unfold releasePage
  cases hslot : l.slots page with
  | some slot =>
      dsimp only
      split_ifs with hused
      · obtain ⟨hlt, hcomplete⟩ := hl.used_lt hused
        obtain ⟨hnodup, hfree⟩ := hl.free hcomplete
        have hnot : slot ∉ l.free := by
          intro hmem
          exact absurd (((hfree slot).mp hmem).2.symm.trans hused) Bool.false_ne_true
        refine { ok := ?_, sound := hg, pages := rfl, privates := fun _ hp => hp,
                 kept := fun hp _ => hp, pins := rfl, freed := ?_, slots := rfl,
                 complete := Iff.rfl }
        · refine ⟨hl.nodup, hl.slots_iff, hl.length_le, hl.privates_le, ?_, ?_, ?_⟩
          · intro s hs
            change Function.update l.inUse slot false s = true at hs
            rcases eq_or_ne s slot with rfl | hne
            · rw [Function.update_self] at hs
              cases hs
            · rw [Function.update_of_ne hne] at hs
              exact hl.used_lt hs
          · intro _
            refine ⟨List.nodup_cons.mpr ⟨hnot, hnodup⟩, ?_⟩
            intro s
            show s ∈ slot :: l.free ↔ s < l.resident ∧ Function.update l.inUse slot false s = false
            rcases eq_or_ne s slot with rfl | hne
            · rw [Function.update_self]
              exact iff_of_true List.mem_cons_self ⟨hlt, rfl⟩
            · rw [Function.update_of_ne hne, List.mem_cons, or_iff_right hne]
              exact hfree s
          · intro hnotComplete
            exact absurd hcomplete hnotComplete
        · intro s hs hs'
          change Function.update l.inUse slot false s = false at hs
          rcases eq_or_ne s slot with rfl | hne
          · exact ⟨page, List.mem_singleton_self page, hslot⟩
          · rw [Function.update_of_ne hne] at hs
            exact absurd (hs.symm.trans hs') Bool.false_ne_true
      · exact .refl hl hg _
  | none =>
      dsimp only
      split_ifs with hmem
      · have hnodup := (List.nodup_append.mp hl.nodup).2.1
        refine { ok := ?_, sound := hg.release _, pages := rfl, privates := ?_, kept := ?_,
                 pins := (g.releasePhysicalPages_kept _).1, freed := ?_, slots := rfl,
                 complete := Iff.rfl }
        · refine ⟨?_, hl.slots_iff, hl.length_le, ?_, hl.used_lt, hl.free, hl.building⟩
          · exact hl.nodup.sublist (List.erase_sublist.append_left _)
          · exact List.length_erase_le.trans hl.privates_le
        · intro p hp
          exact List.mem_of_mem_erase hp
        · intro p hp hkeep
          refine (hg.allocated_release _ _).mpr ⟨hp, ?_⟩
          intro heq
          obtain rfl := List.mem_singleton.mp heq
          exact absurd (hkeep hmem) hnodup.not_mem_erase
        · intro s hs hs'
          exact absurd (hs.symm.trans hs') Bool.false_ne_true
      · exact .refl hl hg _

theorem Released.trans {listed listed' : List ℤ} {l l' l'' : SharedKvPagePool}
    {g g' g'' : GlobalKvPagePool} (h : Released listed l g l' g')
    (h' : Released listed' l' g' l'' g'') : Released (listed ++ listed') l g l'' g'' where
  ok := h'.ok
  sound := h'.sound
  pages := h'.pages.trans h.pages
  privates p hp := h.privates p (h'.privates p hp)
  kept {p} hp hkeep := by
    refine h'.kept (h.kept hp fun hmem => h'.privates p (hkeep hmem)) ?_
    exact fun hmem => hkeep (h.privates p hmem)
  pins := h'.pins.trans h.pins
  freed {s} hs hs' := by
    cases hmid : l'.inUse s with
    | false =>
        obtain ⟨p, hp, hslot⟩ := h.freed hmid hs'
        exact ⟨p, List.mem_append_left _ hp, hslot⟩
    | true =>
        obtain ⟨p, hp, hslot⟩ := h'.freed hs hmid
        exact ⟨p, List.mem_append_right _ hp, h.slots ▸ hslot⟩
  slots := h'.slots.trans h.slots
  complete := h'.complete.trans h.complete

/-- A list of pages is released, one by one. -/
theorem Released.list {l : SharedKvPagePool} {g : GlobalKvPagePool} (hl : l.Ok) (hg : g.Sound)
    (pages : List ℤ) :
    Released pages l g (l.releasePhysicalPages g pages).1 (l.releasePhysicalPages g pages).2 := by
  unfold SharedKvPagePool.releasePhysicalPages
  induction pages generalizing l g with
  | nil => exact .refl hl hg _
  | cons page pages ih =>
      have hone := Released.page hl hg page
      exact hone.trans (ih hone.ok hone.sound)

end Qw3.Pages
