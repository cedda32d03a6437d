import Mathlib.Data.List.Basic
import Mathlib.Tactic.Common

/-!
# Files

A file is a length and a byte at each place.  A positional write puts bytes at an
offset; what lies between the old end and the offset reads as zero.

* `File.write`, `File.read` — positional access.
* `File.get_write` — what a byte is after a write.
* `File.write_append` — two adjacent writes are one.
-/

/-- A file.  Its bytes from `length` on do not count; see `File.get`. -/
structure File where
  length : ℕ
  byte : ℕ → UInt8

namespace File

/-- The byte at a place, zero past the end. -/
def get (f : File) (i : ℕ) : UInt8 := if i < f.length then f.byte i else 0

/-- The `n` bytes from an offset on. -/
def read (f : File) (offset n : ℕ) : List UInt8 := (List.range n).map fun i => f.get (offset + i)

/-- Whether the file has the `n` bytes from an offset on. -/
def Covers (f : File) (offset n : ℕ) : Prop := n = 0 ∨ offset + n ≤ f.length

instance (f : File) (offset n : ℕ) : Decidable (f.Covers offset n) :=
  inferInstanceAs (Decidable (_ ∨ _))

theorem covers_add (f : File) (offset m n : ℕ) :
    f.Covers offset (m + n) ↔ f.Covers offset m ∧ f.Covers (offset + m) n := by
  unfold Covers
  omega

/-- Bytes are put at an offset. -/
def write (f : File) (offset : ℕ) (data : List UInt8) : File :=
  if data = [] then f
  else
    { length := max f.length (offset + data.length)
      byte := fun i => if offset ≤ i then (data[i - offset]?).getD (f.get i) else f.get i }

variable {f g : File} {offset i n : ℕ} {data : List UInt8}

@[simp] theorem write_nil (f : File) (offset : ℕ) : f.write offset [] = f := rfl

theorem length_write (f : File) (offset : ℕ) {data : List UInt8} (h : data ≠ []) :
    (f.write offset data).length = max f.length (offset + data.length) := by
  rw [write, if_neg h]

theorem le_length_write (f : File) (offset : ℕ) (data : List UInt8) :
    f.length ≤ (f.write offset data).length := by
  rcases eq_or_ne data [] with rfl | h
  · exact Nat.le_refl _
  · rw [length_write f offset h]
    exact Nat.le_max_left ..

theorem get_of_le (h : f.length ≤ i) : f.get i = 0 := if_neg (Nat.not_lt.mpr h)

/-- The byte at a place after a write. -/
theorem get_write (f : File) (offset i : ℕ) (data : List UInt8) :
    (f.write offset data).get i =
      if offset ≤ i then (data[i - offset]?).getD (f.get i) else f.get i := by
  rcases eq_or_ne data [] with rfl | h
  · simp
  · rw [get, length_write f offset h]
    by_cases hi : i < max f.length (offset + data.length)
    · rw [if_pos hi, write, if_neg h]
    · -- Past the new end there is no byte of the old file and none that was written.
      have hold : f.get i = 0 := get_of_le (by omega)
      rw [if_neg hi, List.getElem?_eq_none (by omega), Option.getD_none, hold]
      split_ifs <;> rfl

theorem get_write_of_mem (f : File) (offset : ℕ) (h : i < data.length) :
    (f.write offset data).get (offset + i) = data[i] := by
  rw [get_write, if_pos (Nat.le_add_right ..), Nat.add_sub_cancel_left,
    List.getElem?_eq_getElem h, Option.getD_some]

theorem get_write_of_not_mem (f : File) (h : i < offset ∨ offset + data.length ≤ i) :
    (f.write offset data).get i = f.get i := by
  rw [get_write]
  split_ifs with hle
  · rw [List.getElem?_eq_none (by omega), Option.getD_none]
  · rfl

theorem byte_write (h : data ≠ []) : (f.write offset data).byte =
    fun i => if offset ≤ i then (data[i - offset]?).getD (f.get i) else f.get i := by
  rw [write, if_neg h]

/-- Two adjacent writes are one. -/
theorem write_append (f : File) (offset : ℕ) (xs ys : List UInt8) :
    f.write offset (xs ++ ys) = (f.write offset xs).write (offset + xs.length) ys := by
  rcases eq_or_ne ys [] with rfl | hy
  · simp
  rcases eq_or_ne xs [] with rfl | hx
  · simp
  have hxy : xs ++ ys ≠ [] := List.append_ne_nil_of_left_ne_nil hx ys
  rw [File.mk.injEq (f.write offset (xs ++ ys)).length]
  constructor
  · rw [length_write _ _ hxy, length_write _ _ hy, length_write _ _ hx, List.length_append]
    omega
  · funext i
    rw [byte_write hxy, byte_write hy]
    dsimp only
    rw [get_write]
    by_cases hi : offset ≤ i
    · by_cases hlast : offset + xs.length ≤ i
      · rw [if_pos hi, if_pos hlast, if_pos hi, List.getElem?_append_right (by omega),
          List.getElem?_eq_none (l := xs) (by omega), Nat.sub_sub]
        rfl
      · rw [if_pos hi, if_neg hlast, if_pos hi, List.getElem?_append_left (by omega)]
    · rw [if_neg hi, if_neg (by omega), if_neg hi]

@[simp] theorem length_read (f : File) (offset n : ℕ) : (f.read offset n).length = n := by
  simp [read]

theorem getElem_read (h : i < (f.read offset n).length) :
    (f.read offset n)[i] = f.get (offset + i) := by
  simp [read]

theorem read_add (f : File) (offset m n : ℕ) :
    f.read offset (m + n) = f.read offset m ++ f.read (offset + m) n := by
  simp [read, List.range_add, Nat.add_assoc]

/-- Bytes that are copied to the same place of another file. -/
theorem get_write_read (f g : File) (hle : offset ≤ i) (hi : i < offset + n) :
    (f.write offset (g.read offset n)).get i = g.get i := by
  have hlt : i - offset < (g.read offset n).length := by
    rw [length_read]
    omega
  have hget := get_write_of_mem f offset hlt
  rwa [getElem_read, Nat.add_sub_cancel' hle] at hget

theorem le_length_write_append (f : File) (offset : ℕ) {data : List UInt8} (h : data ≠ []) :
    offset + data.length ≤ (f.write offset data).length := by
  rw [length_write f offset h]
  exact Nat.le_max_right ..

end File
