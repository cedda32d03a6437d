import Mathlib.Data.List.Perm.Subperm
import Qw3.Tier.Slots

/-!
# The global page pool

* `GlobalKvPagePool` and its operations — the source's (`global_kv_page_pool.hpp`).
* `GlobalKvPagePool.Sound` — the free list is the pages that are not allocated,
  each once, and no free page is pinned; kept by every operation.
* `GlobalKvPagePool.allocated_release` — what a release leaves allocated.
-/

namespace Qw3.Pages

open Qw3.Tier (toInt32 freshSlots)

/-- `GlobalKvPagePool`.  The back of `free_pages_` is first. -/
structure GlobalKvPagePool where
  totalPages : ℕ
  pageSize : ℕ
  freePages : List ℤ
  pagePinRefcount : ℤ → ℕ
  allocated : ℤ → Bool
  pinnedPages : ℕ
  usedPages : ℕ

namespace GlobalKvPagePool

/-- The constructor: page 0 is at the back of the free list. -/
def initial (totalPages pageSize : ℕ) : GlobalKvPagePool :=
  ⟨totalPages, pageSize, freshSlots totalPages, fun _ => 0, fun _ => false, 0, 0⟩

variable (g : GlobalKvPagePool)

/-- `allocate_physical_page`, where the prefix cache has no entry to evict: what it
evicts before is released in steps of its own. -/
def allocatePhysicalPage : Except String (ℤ × GlobalKvPagePool) :=
  match g.freePages with
  | page :: rest =>
      .ok (page, { g with
        freePages := rest
        allocated := Function.update g.allocated page true
        usedPages := g.usedPages + 1 })
  | [] =>
      .error ("global KV page pool exhausted: free=0 total=" ++ toString g.totalPages ++
        " page_size=" ++ toString g.pageSize)

/-- The page that is taken next is an index of `allocated_`. -/
def NextIndexed : Prop := g.freePages.head?.all (fun page => decide (0 ≤ page)) = true

instance : Decidable g.NextIndexed := inferInstanceAs (Decidable (_ = true))

/-- A page that the operations on lists do not skip. -/
def InRange (page : ℤ) : Prop := 0 ≤ page ∧ page < g.totalPages

instance (page : ℤ) : Decidable (g.InRange page) := inferInstanceAs (Decidable (_ ∧ _))

/-- The body of the loop of `release_physical_pages`. -/
def releasePage (page : ℤ) : GlobalKvPagePool :=
  if ¬ g.InRange page then g
  else if 0 < g.pagePinRefcount page ∨ g.allocated page = false then g
  else
    { g with
      allocated := Function.update g.allocated page false
      freePages := page :: g.freePages
      usedPages := g.usedPages - 1 }

/-- `release_physical_pages`. -/
def releasePhysicalPages (pages : List ℤ) : GlobalKvPagePool := pages.foldl releasePage g

/-- The body of the loop of `pin_pages`. -/
def pinPage (page : ℤ) : GlobalKvPagePool :=
  if ¬ g.InRange page then g
  else
    { g with
      pagePinRefcount :=
        Function.update g.pagePinRefcount page ((g.pagePinRefcount page + 1) % 2 ^ 32)
      pinnedPages := if g.pagePinRefcount page = 0 then g.pinnedPages + 1 else g.pinnedPages }

/-- `pin_pages`. -/
def pinPages (pages : List ℤ) : GlobalKvPagePool := pages.foldl pinPage g

/-- The body of the loop of `unpin_pages`. -/
def unpinPage (page : ℤ) : GlobalKvPagePool :=
  if ¬ g.InRange page then g
  else if 0 < g.pagePinRefcount page then
    { g with
      pagePinRefcount := Function.update g.pagePinRefcount page (g.pagePinRefcount page - 1)
      pinnedPages := if g.pagePinRefcount page = 1 then g.pinnedPages - 1 else g.pinnedPages }
  else g

/-- `unpin_pages`. -/
def unpinPages (pages : List ℤ) : GlobalKvPagePool := pages.foldl unpinPage g

/-! ## The invariant -/

/-- The pages are free or allocated, and a free page is not pinned. -/
structure Sound (g : GlobalKvPagePool) : Prop where
  total_le : g.totalPages ≤ 2 ^ 32
  nodup : g.freePages.Nodup
  mem_iff : ∀ p, p ∈ g.freePages ↔ p ∈ freshSlots g.totalPages ∧ g.allocated p = false
  paged : ∀ {p}, g.allocated p = true → p ∈ freshSlots g.totalPages ∧ 0 ≤ p
  count : g.freePages.length + g.usedPages = g.totalPages
  unpinned : ∀ {p}, p ∈ g.freePages → g.pagePinRefcount p = 0

theorem Sound.initial {totalPages : ℕ} (pageSize : ℕ) (h : totalPages ≤ 2 ^ 32) :
    Sound (initial totalPages pageSize) where
  total_le := h
  nodup := Tier.NvmeKvTier.freshSlots_nodup h
  mem_iff p := (and_iff_left rfl).symm
  paged hp := by cases hp
  count := by simp [GlobalKvPagePool.initial, freshSlots]
  unpinned _ := rfl

/-- A page of the pool that is not negative is in range. -/
theorem inRange_of_mem (h : g.totalPages ≤ 2 ^ 32) {p : ℤ} (hp : p ∈ freshSlots g.totalPages)
    (hpos : 0 ≤ p) : g.InRange p := by
  obtain ⟨i, hi, rfl⟩ := List.mem_map.mp hp
  have hi := List.mem_range.mp hi
  refine ⟨hpos, ?_⟩
  unfold toInt32 at hpos ⊢
  rw [Int.bmod_def] at hpos ⊢
  omega

section Sound

variable {g} (h : Sound g)
include h

theorem Sound.inRange {p : ℤ} (hp : g.allocated p = true) : g.InRange p :=
  g.inRange_of_mem h.total_le (h.paged hp).1 (h.paged hp).2

theorem Sound.not_mem {p : ℤ} (hp : g.allocated p = true) : p ∉ g.freePages := by
  intro hmem
  have hfree := ((h.mem_iff p).mp hmem).2
  rw [hp] at hfree
  cases hfree

/-- What an allocation takes. -/
theorem Sound.allocate {page : ℤ} {g' : GlobalKvPagePool}
    (hnext : g.NextIndexed) (hg : g.allocatePhysicalPage = .ok (page, g')) :
    Sound g' ∧ g.allocated page = false ∧ g'.allocated = Function.update g.allocated page true ∧
      g.pagePinRefcount page = 0 ∧ g'.pagePinRefcount = g.pagePinRefcount ∧
      g'.totalPages = g.totalPages ∧ 0 ≤ page := by
  unfold allocatePhysicalPage at hg
  cases hfree : g.freePages with
  | nil => rw [hfree] at hg; cases hg
  | cons first rest =>
      rw [hfree] at hg
      obtain ⟨rfl, rfl⟩ := Prod.mk.inj (Except.ok.inj hg)
      have hmem : first ∈ g.freePages := hfree ▸ List.mem_cons_self
      obtain ⟨hfresh, hnot⟩ := (h.mem_iff first).mp hmem
      have hpos : 0 ≤ first := by
        unfold NextIndexed at hnext
        rw [hfree] at hnext
        exact of_decide_eq_true hnext
      have hnodup := h.nodup
      have hcount := h.count
      rw [hfree] at hnodup hcount
      obtain ⟨hfirst, hrest⟩ := List.nodup_cons.mp hnodup
      refine ⟨?_, hnot, rfl, h.unpinned hmem, rfl, rfl, hpos⟩
      refine ⟨h.total_le, hrest, ?_, ?_, ?_, ?_⟩
      · intro p
        show p ∈ rest ↔ _ ∧ Function.update g.allocated first true p = false
        rcases eq_or_ne p first with rfl | hne
        · rw [Function.update_self]
          exact iff_of_false hfirst (fun hp => Bool.noConfusion hp.2)
        · rw [Function.update_of_ne hne, ← h.mem_iff, hfree, List.mem_cons, or_iff_right hne]
      · intro p hp
        change Function.update g.allocated first true p = true at hp
        rcases eq_or_ne p first with rfl | hne
        · exact ⟨hfresh, hpos⟩
        · rw [Function.update_of_ne hne] at hp
          exact h.paged hp
      · show rest.length + (g.usedPages + 1) = g.totalPages
        rw [← hcount, List.length_cons]
        omega
      · intro p hp
        exact h.unpinned (hfree ▸ List.mem_cons_of_mem _ hp)

theorem Sound.releasePage (page : ℤ) : Sound (g.releasePage page) := by
  unfold GlobalKvPagePool.releasePage
  split_ifs with hrange hskip
  · exact h
  · obtain ⟨hpin, hown⟩ := not_or.mp hskip
    have hown : g.allocated page = true := Bool.not_eq_false _ ▸ hown
    obtain ⟨hfresh, -⟩ := h.paged hown
    have hnot := h.not_mem hown
    -- an allocated page is not counted as free
    have hlt : g.freePages.length < g.totalPages := by
      have hsub : (page :: g.freePages).Subperm (freshSlots g.totalPages) := by
        apply (List.nodup_cons.mpr ⟨hnot, h.nodup⟩).subperm
        intro p hp
        rcases List.mem_cons.mp hp with rfl | hp
        · exact hfresh
        · exact ((h.mem_iff p).mp hp).1
      have hle := hsub.length_le
      rw [List.length_cons] at hle
      have htotal : (freshSlots g.totalPages).length = g.totalPages := by simp [freshSlots]
      omega
    have hcount := h.count
    refine ⟨h.total_le, List.nodup_cons.mpr ⟨hnot, h.nodup⟩, ?_, ?_, ?_, ?_⟩
    · intro p
      show p ∈ page :: g.freePages ↔ _ ∧ Function.update g.allocated page false p = false
      rcases eq_or_ne p page with rfl | hne
      · rw [Function.update_self]
        exact iff_of_true List.mem_cons_self ⟨hfresh, rfl⟩
      · rw [Function.update_of_ne hne, List.mem_cons, or_iff_right hne]
        exact h.mem_iff p
    · intro p hp
      change Function.update g.allocated page false p = true at hp
      rcases eq_or_ne p page with rfl | hne
      · rw [Function.update_self] at hp
        cases hp
      · rw [Function.update_of_ne hne] at hp
        exact h.paged hp
    · show (page :: g.freePages).length + (g.usedPages - 1) = g.totalPages
      rw [List.length_cons]
      omega
    · intro p hp
      rcases List.mem_cons.mp hp with rfl | hp
      · exact Nat.eq_zero_of_not_pos hpin
      · exact h.unpinned hp
  · exact h

theorem Sound.release (pages : List ℤ) : Sound (g.releasePhysicalPages pages) := by
  unfold releasePhysicalPages
  induction pages generalizing g with
  | nil => exact h
  | cons page pages ih => exact ih (h.releasePage page)

/-- A release frees exactly the allocated pages of its list that are not pinned. -/
theorem Sound.allocated_release (pages : List ℤ) (p : ℤ) :
    (g.releasePhysicalPages pages).allocated p = true ↔
      g.allocated p = true ∧ (p ∈ pages → 0 < g.pagePinRefcount p) := by
  unfold releasePhysicalPages
  induction pages generalizing g with
  | nil => simp
  | cons page pages ih =>
      have hrefcount : (g.releasePage page).pagePinRefcount = g.pagePinRefcount := by
        unfold GlobalKvPagePool.releasePage
        split_ifs <;> rfl
      have hallocated : (g.releasePage page).allocated p = true ↔
          g.allocated p = true ∧ (p = page → 0 < g.pagePinRefcount p) := by
        unfold GlobalKvPagePool.releasePage
        split_ifs with hrange hskip
        · refine (and_iff_left_of_imp ?_).symm
          rintro hp rfl
          exact hskip.resolve_right (by simp [hp])
        · show Function.update g.allocated page false p = true ↔ _
          obtain ⟨hpin, -⟩ := not_or.mp hskip
          rcases eq_or_ne p page with rfl | hne
          · rw [Function.update_self]
            exact iff_of_false Bool.false_ne_true (fun hp => hpin (hp.2 rfl))
          · rw [Function.update_of_ne hne]
            exact (and_iff_left fun heq => absurd heq hne).symm
        · refine (and_iff_left_of_imp ?_).symm
          rintro hp rfl
          exact absurd (h.inRange hp) hrange
      rw [List.foldl_cons, ih (h.releasePage page), hrefcount, hallocated, List.mem_cons]
      tauto

end Sound

/-- Nothing but the free list and its marks changes. -/
theorem releasePhysicalPages_kept (pages : List ℤ) :
    (g.releasePhysicalPages pages).pagePinRefcount = g.pagePinRefcount ∧
      (g.releasePhysicalPages pages).totalPages = g.totalPages := by
  unfold releasePhysicalPages
  induction pages generalizing g with
  | nil => exact ⟨rfl, rfl⟩
  | cons page pages ih =>
      obtain ⟨hpin, htotal⟩ := ih (g.releasePage page)
      have hone : (g.releasePage page).pagePinRefcount = g.pagePinRefcount ∧
          (g.releasePage page).totalPages = g.totalPages := by
        unfold releasePage
        split_ifs <;> exact ⟨rfl, rfl⟩
      exact ⟨hpin.trans hone.1, htotal.trans hone.2⟩

/-- Pins change nothing but the pins, and those of the listed pages only. -/
theorem pinPages_kept (pages : List ℤ) :
    (g.pinPages pages).allocated = g.allocated ∧ (g.pinPages pages).freePages = g.freePages ∧
      (g.pinPages pages).totalPages = g.totalPages ∧
      (g.pinPages pages).usedPages = g.usedPages ∧
      ∀ p ∉ pages, (g.pinPages pages).pagePinRefcount p = g.pagePinRefcount p := by
  unfold pinPages
  induction pages generalizing g with
  | nil => exact ⟨rfl, rfl, rfl, rfl, fun _ _ => rfl⟩
  | cons page pages ih =>
      obtain ⟨hallocated, hfree, htotal, hused, hpin⟩ := ih (g.pinPage page)
      have hone : (g.pinPage page).allocated = g.allocated ∧
          (g.pinPage page).freePages = g.freePages ∧
          (g.pinPage page).totalPages = g.totalPages ∧
          (g.pinPage page).usedPages = g.usedPages ∧
          ∀ p, p ≠ page → (g.pinPage page).pagePinRefcount p = g.pagePinRefcount p := by
        unfold pinPage
        split
        · exact ⟨rfl, rfl, rfl, rfl, fun _ _ => rfl⟩
        · exact ⟨rfl, rfl, rfl, rfl, fun p hne => Function.update_of_ne hne ..⟩
      refine ⟨hallocated.trans hone.1, hfree.trans hone.2.1, htotal.trans hone.2.2.1,
        hused.trans hone.2.2.2.1, ?_⟩
      intro p hp
      obtain ⟨hne, hp⟩ := not_or.mp (List.mem_cons.not.mp hp)
      exact (hpin p hp).trans (hone.2.2.2.2 p hne)

/-- A page that is not pinned is not pinned after pins are dropped. -/
theorem unpinPages_kept (pages : List ℤ) :
    (g.unpinPages pages).allocated = g.allocated ∧
      (g.unpinPages pages).freePages = g.freePages ∧
      (g.unpinPages pages).totalPages = g.totalPages ∧
      (g.unpinPages pages).usedPages = g.usedPages ∧
      ∀ p, g.pagePinRefcount p = 0 → (g.unpinPages pages).pagePinRefcount p = 0 := by
  unfold unpinPages
  induction pages generalizing g with
  | nil => exact ⟨rfl, rfl, rfl, rfl, fun _ hp => hp⟩
  | cons page pages ih =>
      obtain ⟨hallocated, hfree, htotal, hused, hpin⟩ := ih (g.unpinPage page)
      have hone : (g.unpinPage page).allocated = g.allocated ∧
          (g.unpinPage page).freePages = g.freePages ∧
          (g.unpinPage page).totalPages = g.totalPages ∧
          (g.unpinPage page).usedPages = g.usedPages ∧
          ∀ p, g.pagePinRefcount p = 0 → (g.unpinPage page).pagePinRefcount p = 0 := by
        unfold unpinPage
        split
        · exact ⟨rfl, rfl, rfl, rfl, fun _ hp => hp⟩
        · split
          · next hpos =>
              refine ⟨rfl, rfl, rfl, rfl, ?_⟩
              intro p hp
              have hne : p ≠ page := by
                rintro rfl
                omega
              exact (Function.update_of_ne hne ..).trans hp
          · exact ⟨rfl, rfl, rfl, rfl, fun _ hp => hp⟩
      exact ⟨hallocated.trans hone.1, hfree.trans hone.2.1, htotal.trans hone.2.2.1,
        hused.trans hone.2.2.2.1, fun p hp => hpin p (hone.2.2.2.2 p hp)⟩

variable {g}

/-- Only pins on pages that are not free may change. -/
theorem Sound.pins {g' : GlobalKvPagePool} (h : Sound g) (hallocated : g'.allocated = g.allocated)
    (hfree : g'.freePages = g.freePages) (htotal : g'.totalPages = g.totalPages)
    (hused : g'.usedPages = g.usedPages)
    (hpin : ∀ p ∈ g.freePages, g'.pagePinRefcount p = 0) : Sound g' := by
  refine ⟨?_, ?_, ?_, ?_, ?_, ?_⟩
  · rw [htotal]; exact h.total_le
  · rw [hfree]; exact h.nodup
  · rw [hfree, htotal, hallocated]; exact h.mem_iff
  · rw [htotal, hallocated]; exact h.paged
  · rw [hfree, htotal, hused]; exact h.count
  · intro p hp
    exact hpin p (hfree ▸ hp)

/-- Pins on allocated pages. -/
theorem Sound.pin (h : Sound g) {pages : List ℤ} (hpages : ∀ p ∈ pages, g.allocated p = true) :
    Sound (g.pinPages pages) := by
  obtain ⟨hallocated, hfree, htotal, hused, hpin⟩ := g.pinPages_kept pages
  refine h.pins hallocated hfree htotal hused ?_
  intro p hp
  rw [hpin p (fun hmem => h.not_mem (hpages p hmem) hp)]
  exact h.unpinned hp

theorem Sound.unpin (h : Sound g) (pages : List ℤ) : Sound (g.unpinPages pages) := by
  obtain ⟨hallocated, hfree, htotal, hused, hpin⟩ := g.unpinPages_kept pages
  exact h.pins hallocated hfree htotal hused fun p hp => hpin p (h.unpinned hp)

/-- When no page is allocated, the free list is all pages. -/
theorem Sound.perm (h : Sound g) (hnone : ∀ p, g.allocated p = false) :
    g.freePages.Perm (freshSlots g.totalPages) := by
  refine (List.perm_ext_iff_of_nodup h.nodup (Tier.NvmeKvTier.freshSlots_nodup h.total_le)).mpr ?_
  intro p
  rw [h.mem_iff, and_iff_left (hnone p)]

end GlobalKvPagePool

end Qw3.Pages
