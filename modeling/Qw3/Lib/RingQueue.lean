import Mathlib.Data.List.Basic
import Mathlib.Data.List.Nodup
import Mathlib.Data.List.Range
import Mathlib.Logic.Function.Basic

/-!
# A bounded ring queue

A single-producer single-consumer ring over `capacity + 1` cells: `head` is
owned by the consumer, `tail` by the producer, one cell always stays empty, so
`head = tail` means empty and `next tail = head` means full.

A pop is a cell read followed by a `head` store and a push is a cell write
followed by a `tail` store; the lemmas are stated for these two halves, so that
the other party may move in between.

* `RingQueue.contents` — the queued elements, oldest first.
* `next_tail_eq_head_iff` — the test of `push`, for a queue that is full.
* `contents_of_ne`, `contents_advanceHead` — the two halves of a pop.
* `contents_writeTail`, `contents_advanceTail` — the two halves of a push.
-/

universe u

/-- A ring buffer with `capacity + 1` cells. -/
structure RingQueue (α : Type u) where
  capacity : ℕ
  cells : ℕ → α
  head : ℕ
  tail : ℕ

namespace RingQueue

variable {α : Type u}

/-- The cell after `i`, wrapping at the last one. -/
def next (r : RingQueue α) (i : ℕ) : ℕ := if i = r.capacity then 0 else i + 1

/-- The number of queued elements. -/
def size (r : RingQueue α) : ℕ :=
  if r.head ≤ r.tail then r.tail - r.head else (r.capacity - r.head) + r.tail + 1

/-- The cell `k` places after `head`. -/
def index (r : RingQueue α) (k : ℕ) : ℕ :=
  if r.head + k ≤ r.capacity then r.head + k else r.head + k - (r.capacity + 1)

/-- The queued elements, oldest first. -/
def contents (r : RingQueue α) : List α := (List.range r.size).map fun k => r.cells (r.index k)

/-- Both indices name a cell. -/
structure WellFormed (r : RingQueue α) : Prop where
  head_le : r.head ≤ r.capacity
  tail_le : r.tail ≤ r.capacity

/-- The consumer's store of `head`. -/
def advanceHead (r : RingQueue α) : RingQueue α := { r with head := r.next r.head }

/-- The producer's cell write. -/
def writeTail (r : RingQueue α) (x : α) : RingQueue α :=
  { r with cells := Function.update r.cells r.tail x }

/-- The producer's store of `tail`. -/
def advanceTail (r : RingQueue α) : RingQueue α := { r with tail := r.next r.tail }

@[simp] theorem advanceHead_capacity (r : RingQueue α) : r.advanceHead.capacity = r.capacity := rfl
@[simp] theorem writeTail_capacity (r : RingQueue α) (x : α) :
    (r.writeTail x).capacity = r.capacity := rfl
@[simp] theorem advanceTail_capacity (r : RingQueue α) : r.advanceTail.capacity = r.capacity := rfl
@[simp] theorem advanceTail_head (r : RingQueue α) : r.advanceTail.head = r.head := rfl
@[simp] theorem writeTail_head (r : RingQueue α) (x : α) : (r.writeTail x).head = r.head := rfl
@[simp] theorem writeTail_tail (r : RingQueue α) (x : α) : (r.writeTail x).tail = r.tail := rfl
@[simp] theorem advanceHead_tail (r : RingQueue α) : r.advanceHead.tail = r.tail := rfl
@[simp] theorem writeTail_cells_tail (r : RingQueue α) (x : α) : (r.writeTail x).cells r.tail = x := by
  simp [writeTail]

@[simp] theorem length_contents (r : RingQueue α) : r.contents.length = r.size := by
  simp [contents]

theorem next_le (r : RingQueue α) {i : ℕ} (h : i ≤ r.capacity) : r.next i ≤ r.capacity := by
  unfold next
  split <;> omega

variable {r : RingQueue α}

theorem WellFormed.size_le (h : r.WellFormed) : r.size ≤ r.capacity := by
  have := h.head_le
  have := h.tail_le
  unfold size
  split <;> omega

theorem WellFormed.advanceHead (h : r.WellFormed) : r.advanceHead.WellFormed :=
  ⟨r.next_le h.head_le, h.tail_le⟩

theorem WellFormed.writeTail (h : r.WellFormed) (x : α) :
    (r.writeTail x).WellFormed := ⟨h.head_le, h.tail_le⟩

theorem WellFormed.advanceTail (h : r.WellFormed) : r.advanceTail.WellFormed :=
  ⟨h.head_le, r.next_le h.tail_le⟩

/-- The full test of `push`. -/
theorem next_tail_eq_head_iff (h : r.WellFormed) :
    r.next r.tail = r.head ↔ r.contents.length = r.capacity := by
  have := h.head_le
  have := h.tail_le
  rw [length_contents, size, next]
  split <;> split <;> omega

/-- A nonempty queue starts with the cell at `head`, and the rest is what the
consumer's `head` store leaves behind. -/
theorem contents_of_ne (h : r.WellFormed) (hne : r.head ≠ r.tail) :
    r.contents = r.cells r.head :: r.advanceHead.contents := by
  have hhead := h.head_le
  have htail := h.tail_le
  have hsize : r.size = r.advanceHead.size + 1 := by
    simp only [size, advanceHead, next]
    split <;> split <;> split <;> omega
  have hindex : ∀ k < r.advanceHead.size, r.index (k + 1) = r.advanceHead.index k := by
    intro k hk
    have hle := (WellFormed.advanceHead h).size_le
    simp only [index, advanceHead, next] at hk hle ⊢
    split <;> split <;> split <;> omega
  rw [contents, hsize, List.range_succ_eq_map, List.map_cons, List.map_map, contents]
  congr 1
  · simp [index, hhead]
  · apply List.map_congr_left
    intro k hk
    rw [List.mem_range] at hk
    simp only [Function.comp_apply, Nat.succ_eq_add_one, hindex k hk]
    rfl

/-- A queued index is never the cell at `tail`. -/
theorem index_ne_tail (h : r.WellFormed) {k : ℕ} (hk : k < r.size) :
    r.index k ≠ r.tail := by
  have hhead := h.head_le
  have htail := h.tail_le
  unfold size at hk
  unfold index
  split_ifs at hk ⊢ <;> omega

/-- The index one past the last queued one is `tail`. -/
theorem index_size (h : r.WellFormed) : r.index r.size = r.tail := by
  have hhead := h.head_le
  have htail := h.tail_le
  unfold index size
  split_ifs <;> omega

/-- The producer's cell write is invisible until the `tail` store. -/
theorem contents_writeTail (h : r.WellFormed) (x : α) :
    (r.writeTail x).contents = r.contents := by
  apply List.map_congr_left
  intro k hk
  rw [List.mem_range] at hk
  exact Function.update_of_ne (index_ne_tail h hk) _ _

/-- The `tail` store of a push that did not overflow appends the cell at
`tail`. -/
theorem contents_advanceTail (h : r.WellFormed)
    (hfull : r.next r.tail ≠ r.head) :
    r.advanceTail.contents = r.contents ++ [r.cells r.tail] := by
  have hhead := h.head_le
  have htail := h.tail_le
  have hsize : r.advanceTail.size = r.size + 1 := by
    simp only [size, advanceTail, next] at hfull ⊢
    split_ifs at hfull ⊢ <;> omega
  have hcells : r.advanceTail.cells (r.advanceTail.index r.size) = r.cells r.tail :=
    congrArg r.cells (index_size h)
  rw [contents, hsize, List.range_succ, List.map_append, List.map_singleton, hcells]
  rfl

end RingQueue
