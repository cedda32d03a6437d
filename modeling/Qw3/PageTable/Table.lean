import Mathlib.Algebra.Group.Nat.Defs
import Mathlib.Data.Int.Notation
import Mathlib.Data.Nat.Notation
import Mathlib.Tactic.Common
import Qw3.Lib.Program

/-!
# Key-value page tables

`KvPageTable` (`qwen_executor.cpp`): the physical pages of a request by logical page, on
the host and in a device tensor.  An operation may throw part way, and then what it did
stays.

* `KvPageTable` — a table, its pages, which of them it owns, and the tensor.
* `KvPhysicalPageAllocator` — the interface that tables take pages from.
* `ensurePages`, `ensureLogicalPageResident`, `ensureLogicalPageRangesResident`,
  `releaseLogicalPages`, `releaseLogicalPageRanges`, `truncateToLogicalPages`,
  `adoptSharedPages`, `detachPagesFrom`, `reset` — the source's.
* `Op.exec` — an operation on a table.

The copies to the device are taken to go through: a copy or a tensor that the device
refuses would throw between two writes of the host's arrays, and no operation here does.
-/

namespace Qw3.PageTable

/-- `KvPhysicalPageAllocator`: taking a page may throw. -/
structure KvPhysicalPageAllocator (σ : Type) where
  allocatePhysicalPage : σ → Except String ℤ × σ
  releasePhysicalPages : List ℤ → σ → σ
  freePages : σ → ℕ
  physicalPageCapacity : σ → ℕ

/-- `KvPageTable`.  `devicePages` is what the tensor holds. -/
structure KvPageTable where
  pageSize : ℕ
  maxPages : ℕ
  allocMode : String
  pages : List ℤ
  owned : List Bool
  devicePages : Option (ℕ → ℤ)
  deviceSynced : ℕ
  boundedSlots : Bool

namespace KvPageTable

variable (t : KvPageTable)

/-- `allocate_physical_page`, of a table without an allocator. -/
def allocatePhysicalPage (logicalPage : ℕ) : Except String ℤ :=
  if t.maxPages ≤ logicalPage then .error "KV physical page allocation exceeded page capacity"
  else if t.allocMode = "identity" then .ok logicalPage
  else if t.allocMode = "reverse" then .ok (t.maxPages - 1 - logicalPage : ℕ)
  else if t.allocMode = "evens-first" then
    let evenCount := (t.maxPages + 1) / 2
    let physicalPage :=
      if logicalPage < evenCount then logicalPage * 2 else (logicalPage - evenCount) * 2 + 1
    if t.maxPages ≤ physicalPage then .error "evens-first KV page allocator produced an invalid page"
    else .ok physicalPage
  else .error ("invalid QW3_PAGED_KV_ALLOC: " ++ t.allocMode)

/-- `pages.push_back(page); owned.push_back(true);` -/
def push (page : ℤ) : KvPageTable := { t with pages := t.pages ++ [page], owned := t.owned ++ [true] }

/-- A page is put in a hole, `owned` being filled up before. -/
def fill (logicalPage : ℕ) (page : ℤ) : KvPageTable :=
  { t with
    pages := t.pages.set logicalPage page
    owned := (t.owned ++ List.replicate (t.pages.length - t.owned.length) true).set logicalPage true }

/-- `pages[i]` is a page that goes back to the allocator when the table drops it. -/
def Owns (i : ℕ) : Prop := t.owned.length ≤ i ∨ t.owned[i]? = some true

instance (i : ℕ) : Decidable (t.Owns i) := inferInstanceAs (Decidable (_ ∨ _))

/-- The pages from a logical page on that go back to the allocator. -/
def ownedFrom (start : ℕ) : List ℤ :=
  ((List.range' start (t.pages.length - start)).filter fun i => t.Owns i).filterMap (t.pages[·]?)

/-- The loop body of the releases, with the pages that are released so far. -/
def dropPage (x : List ℤ × KvPageTable) (logicalPage : ℕ) : List ℤ × KvPageTable :=
  match x.2.pages[logicalPage]? with
  | none => x
  | some page =>
      if page < 0 then x
      else
        (if x.2.Owns logicalPage then x.1 ++ [page] else x.1,
          { x.2 with
            pages := x.2.pages.set logicalPage (-1)
            owned := x.2.owned.set logicalPage false })

/-- The loop over a range of logical pages. -/
def dropRange (x : List ℤ × KvPageTable) (start finish : ℕ) : List ℤ × KvPageTable :=
  (List.range' start (finish - start)).foldl dropPage x

/-- `std::min(pages.size(), logical_start + count)`: the sum is of 32 bits. -/
def rangeEnd (start count : ℕ) : ℕ := min t.pages.length ((start + count) % 2 ^ 32)

/-- `pages.resize(n)`, to fewer pages. -/
def shrink (n : ℕ) : KvPageTable :=
  { t with
    pages := t.pages.take n
    owned := if n < t.owned.length then t.owned.take n else t.owned
    deviceSynced := min t.deviceSynced n }

/-- `copy_i32_from_host` of `count` entries. -/
def upload (start count : ℕ) : KvPageTable :=
  { t with devicePages := t.devicePages.map fun device i =>
      if start ≤ i ∧ i < start + count then t.pages.getD i 0 else device i }

/-- The tensor, which holds anything when it is new. -/
def withTensor (fresh : ℕ → ℤ) : KvPageTable := { t with devicePages := some (t.devicePages.getD fresh) }

/-- The tensor gets the entries up to `finish`, and is synced to there. -/
def publish (fresh : ℕ → ℤ) (start finish : ℕ) : KvPageTable :=
  let u := (t.withTensor fresh).upload start (finish - start)
  { u with deviceSynced := max u.deviceSynced finish }

end KvPageTable

open KvPageTable

/-! ## The operations -/

variable {σ : Type}

/-- What the operations work on: the table and its allocator. -/
abbrev TableM (σ : Type) (α : Type) := Program (KvPageTable × σ) String α

section Operations

variable (a : Option (KvPhysicalPageAllocator σ)) (fresh : ℕ → ℤ)

/-- `allocator ? allocator->allocate_physical_page() : allocate_physical_page(lp)` -/
def takePage (logicalPage : ℕ) : TableM σ ℤ := fun x =>
  match a with
  | some a => ((a.allocatePhysicalPage x.2).1, x.1, (a.allocatePhysicalPage x.2).2)
  | none => (x.1.allocatePhysicalPage logicalPage, x)

/-- `if (allocator && !released.empty()) allocator->release_physical_pages(released);` -/
def giveBack (released : List ℤ) : TableM σ PUnit :=
  modify fun x =>
    match a with
    | some a => if released = [] then x else (x.1, a.releasePhysicalPages released x.2)
    | none => x

/-- A change of the table. -/
def modifyTable (f : KvPageTable → KvPageTable) : TableM σ PUnit := modify fun x => (f x.1, x.2)

/-- `while (pages.size() <= ...)`, for so many pages. -/
def growPages : ℕ → TableM σ PUnit
  | 0 => pure ⟨⟩
  | n + 1 => do
      let x ← get
      let page ← takePage a x.1.pages.length
      modifyTable (·.push page)
      growPages n

/-- The loop of `ensure_pages`, which checks the pages. -/
def growPagesChecked : ℕ → TableM σ PUnit
  | 0 => pure ⟨⟩
  | n + 1 => do
      let x ← get
      let page ← takePage a x.1.pages.length
      let y ← get
      let capacity := match a with
        | some a => a.physicalPageCapacity y.2
        | none => y.1.maxPages
      if page < 0 ∨ capacity ≤ page.toNat then do
        giveBack a [page]
        throw ("KV physical page allocation returned out-of-range page " ++ toString page ++
          " for max_pages=" ++ toString y.1.maxPages)
      else do
        modifyTable (·.push page)
        growPagesChecked n

/-- A hole gets a page. -/
def fillPage (logicalPage : ℕ) : TableM σ PUnit := do
  let x ← get
  if 0 ≤ x.1.pages.getD logicalPage (-1) then pure ⟨⟩
  else do
    let page ← takePage a logicalPage
    modifyTable (·.fill logicalPage page)

/-- The loop body of `ensure_logical_page_ranges_resident`. -/
def ensureRange (range : ℕ × ℕ) : TableM σ PUnit := do
  let x ← get
  if range.2 = 0 then pure ⟨⟩
  else if x.1.maxPages ≤ range.1 ∨ x.1.maxPages < range.1 + range.2 then
    throw "KV logical page range exceeds page capacity"
  else do
    growPages a (range.1 + range.2 - x.1.pages.length)
    (List.range' range.1 range.2).forM (fillPage a)

/-- `upload_begin`. -/
def uploadBegin (maxPages : ℕ) (ranges : List (ℕ × ℕ)) : ℕ :=
  ranges.foldl (fun first range => if range.2 = 0 then first else min first range.1) maxPages

/-- `upload_end`. -/
def uploadEnd (ranges : List (ℕ × ℕ)) : ℕ :=
  ranges.foldl (fun last range => if range.2 = 0 then last else max last (range.1 + range.2)) 0

/-- `ensure_logical_page_ranges_resident`. -/
def ensureLogicalPageRangesResident (ranges : List (ℕ × ℕ)) : TableM σ PUnit := do
  if ranges = [] then pure ⟨⟩
  else do
    ranges.forM (ensureRange a)
    modifyTable fun t =>
      if uploadEnd ranges ≤ uploadBegin t.maxPages ranges then t
      else t.publish fresh (min (uploadBegin t.maxPages ranges) t.deviceSynced) (uploadEnd ranges)

/-- What `ensure_pages` uploads: a new tensor has nothing. -/
def syncDense (t : KvPageTable) : KvPageTable :=
  let t := if t.devicePages.isSome then t else { t.withTensor fresh with deviceSynced := 0 }
  if t.deviceSynced < t.pages.length then t.publish fresh t.deviceSynced t.pages.length else t

/-- `ensure_pages`. -/
def ensurePages (ctxSize logicalPos count : ℕ) : TableM σ PUnit := do
  let x ← get
  let needPages := (logicalPos + count + x.1.pageSize - 1) / x.1.pageSize
  if count = 0 then pure ⟨⟩
  else if ctxSize < logicalPos + count then
    throw ("KV cache full: increase --ctx (current=" ++ toString ctxSize ++ ")")
  else if x.1.maxPages < needPages then
    throw ("KV page table full: increase --ctx (current=" ++ toString ctxSize ++ ")")
  else if x.1.boundedSlots then
    let first := logicalPos / x.1.pageSize
    ensureLogicalPageRangesResident a fresh [(first, needPages - first)]
  else do
    growPagesChecked a (needPages - x.1.pages.length)
    modifyTable (syncDense fresh)

/-- `ensure_logical_page_resident`. -/
def ensureLogicalPageResident (logicalPage : ℕ) : TableM σ PUnit := do
  let x ← get
  if x.1.maxPages ≤ logicalPage then throw "KV logical page exceeds page capacity"
  else do
    growPages a (logicalPage + 1 - x.1.pages.length)
    fillPage a logicalPage
    modifyTable (·.publish fresh logicalPage (logicalPage + 1))

/-- `release_logical_pages`. -/
def releaseLogicalPages (start count : ℕ) : TableM σ PUnit := do
  let x ← get
  if count = 0 ∨ x.1.pages.length ≤ start then pure ⟨⟩
  else do
    let finish := x.1.rangeEnd start count
    let dropped := dropRange ([], x.1) start finish
    modifyTable fun _ => dropped.2
    giveBack a dropped.1
    -- where the sum has wrapped the count of the copy has as well
    modifyTable (·.upload start ((finish + 2 ^ 32 - start) % 2 ^ 32))

/-- The loop of `release_logical_page_ranges`, with its upload window. -/
def dropRanges (t : KvPageTable) (ranges : List (ℕ × ℕ)) : (List ℤ × KvPageTable) × ℕ × ℕ :=
  ranges.foldl (fun x range =>
    if range.2 = 0 ∨ t.pages.length ≤ range.1 then x
    else
      let finish := t.rangeEnd range.1 range.2
      (dropRange x.1 range.1 finish, min x.2.1 range.1, max x.2.2 finish)) (([], t), t.pages.length, 0)

/-- `release_logical_page_ranges`. -/
def releaseLogicalPageRanges (ranges : List (ℕ × ℕ)) : TableM σ PUnit := do
  let x ← get
  if ranges = [] ∨ x.1.pages = [] then pure ⟨⟩
  else do
    let dropped := dropRanges x.1 ranges
    modifyTable fun _ => dropped.1.2
    giveBack a dropped.1.1
    if dropped.2.2 ≤ dropped.2.1 then pure ⟨⟩
    else modifyTable (·.upload dropped.2.1 (dropped.2.2 - dropped.2.1))

/-- `truncate_to_logical_pages`. -/
def truncateToLogicalPages (logicalPages : ℕ) : TableM σ PUnit := do
  let x ← get
  if x.1.boundedSlots ∧ logicalPages < x.1.maxPages then
    throw "bounded KV rewind requires versioned block/page release"
  else if x.1.pages.length ≤ logicalPages then pure ⟨⟩
  else do
    modifyTable (·.shrink logicalPages)
    giveBack a (x.1.ownedFrom logicalPages)

/-- `adopt_shared_pages`. -/
def adoptSharedPages (shared : List ℤ) : TableM σ PUnit := do
  let x ← get
  if x.1.pages ≠ [] then throw "adopt_shared_pages requires a freshly-reset KV page table"
  else if shared = [] then pure ⟨⟩
  else if x.1.maxPages < shared.length then
    throw "adopt_shared_pages: shared prefix exceeds KV page capacity"
  else
    modifyTable fun t =>
      { (({ t with pages := shared, owned := List.replicate shared.length false }).withTensor fresh).upload
          0 shared.length with deviceSynced := shared.length }

/-- `detach_pages_from`: the pages go to the caller. -/
def detachPagesFrom (start : ℕ) : TableM σ (List ℤ) := do
  let x ← get
  if x.1.pages.length ≤ start then pure []
  else do
    modifyTable (·.shrink start)
    pure (x.1.pages.drop start)

/-- A table without pages; a bounded one has all its holes. -/
def cleared (t : KvPageTable) : KvPageTable :=
  { t with
    pages := if t.boundedSlots then List.replicate t.maxPages (-1) else []
    owned := if t.boundedSlots then List.replicate t.maxPages false else []
    deviceSynced := 0 }

/-- `reset`. -/
def reset : TableM σ PUnit := do
  let x ← get
  giveBack a (x.1.ownedFrom 0)
  modifyTable cleared

end Operations

/-- An operation. -/
inductive Op
  | ensurePages (ctxSize logicalPos count : ℕ)
  | ensureLogicalPageResident (logicalPage : ℕ)
  | ensureLogicalPageRangesResident (ranges : List (ℕ × ℕ))
  | releaseLogicalPages (start count : ℕ)
  | releaseLogicalPageRanges (ranges : List (ℕ × ℕ))
  | truncateToLogicalPages (logicalPages : ℕ)
  | adoptSharedPages (shared : List ℤ)
  | detachPagesFrom (start : ℕ)
  | reset
  deriving DecidableEq

/-- An operation on a table, with the pages that the caller gets. -/
def Op.exec (a : Option (KvPhysicalPageAllocator σ)) (fresh : ℕ → ℤ) : Op → TableM σ (List ℤ)
  | .ensurePages ctxSize logicalPos count => do
      PageTable.ensurePages a fresh ctxSize logicalPos count
      pure []
  | .ensureLogicalPageResident logicalPage => do
      PageTable.ensureLogicalPageResident a fresh logicalPage
      pure []
  | .ensureLogicalPageRangesResident ranges => do
      PageTable.ensureLogicalPageRangesResident a fresh ranges
      pure []
  | .releaseLogicalPages start count => do
      PageTable.releaseLogicalPages a start count
      pure []
  | .releaseLogicalPageRanges ranges => do
      PageTable.releaseLogicalPageRanges a ranges
      pure []
  | .truncateToLogicalPages logicalPages => do
      PageTable.truncateToLogicalPages a logicalPages
      pure []
  | .adoptSharedPages shared => do
      PageTable.adoptSharedPages fresh shared
      pure []
  | .detachPagesFrom start => PageTable.detachPagesFrom start
  | .reset => do
      PageTable.reset a
      pure []

end Qw3.PageTable
