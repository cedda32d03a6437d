import Mathlib.Data.List.Induction
import Mathlib.Data.Nat.Find
import Mathlib.Order.Bounds.Basic
import Mathlib.Tactic.Ring

/-!
# SHA-256

FIPS 180-4, on messages of bits.

* `bits`, `value` — a word as bits, the most significant first, and back.
* `pad`, `blocks`, `schedule`, `step`, `compress`, `digest` — sections 5 and 6.2 of the
  standard.
* `hex` — bits as hexadecimal digits.
* `bits_pieces` — a word as bits is its pieces as bits.
* `fraction_eq` — the constants are fractions of roots; how to recognize one.
-/

namespace Fips180

/-- A word of 32 bits. -/
abbrev Word := BitVec 32

/-! ## Bits -/

/-- The bits of a word, the most significant first. -/
def bits {w : ℕ} (x : BitVec w) : List Bool := (List.range w).reverse.map x.getLsbD

/-- The number that bits stand for. -/
def value (l : List Bool) : ℕ := l.foldl (fun n b => 2 * n + b.toNat) 0

/-- The bits of bytes. -/
def ofBytes (bytes : List (BitVec 8)) : List Bool := bytes.flatMap bits

/-- Consecutive pieces of `n`, as many as are complete. -/
def blocks {α : Type*} (n : ℕ) (l : List α) : List (List α) :=
  (List.range (l.length / n)).map fun i => (l.drop (n * i)).take n

/-- Bits as hexadecimal digits. -/
def hex (l : List Bool) : List Char := (blocks 4 l).map fun digit => Nat.digitChar (value digit)

/-! ## Functions and constants -/

def ch (x y z : Word) : Word := (x &&& y) ^^^ (~~~x &&& z)

def maj (x y z : Word) : Word := (x &&& y) ^^^ (x &&& z) ^^^ (y &&& z)

/-- `Σ₀`. -/
def bigSigma0 (x : Word) : Word := x.rotateRight 2 ^^^ x.rotateRight 13 ^^^ x.rotateRight 22

/-- `Σ₁`. -/
def bigSigma1 (x : Word) : Word := x.rotateRight 6 ^^^ x.rotateRight 11 ^^^ x.rotateRight 25

/-- `σ₀`. -/
def smallSigma0 (x : Word) : Word := x.rotateRight 7 ^^^ x.rotateRight 18 ^^^ (x >>> 3)

/-- `σ₁`. -/
def smallSigma1 (x : Word) : Word := x.rotateRight 17 ^^^ x.rotateRight 19 ^^^ (x >>> 10)

/-- The first 64 prime numbers. -/
def primes : List ℕ := [
  2, 3, 5, 7, 11, 13, 17, 19, 23, 29, 31, 37, 41, 43, 47, 53, 59, 61, 67, 71, 73, 79, 83, 89, 97, 101, 103, 107, 109,
  113, 127, 131, 137, 139, 149, 151, 157, 163, 167, 173, 179, 181, 191, 193, 197, 199, 211, 223, 227, 229, 233, 239,
  241, 251, 257, 263, 269, 271, 277, 281, 283, 293, 307, 311]

/-- The `d`-th root, rounded down. -/
def floorRoot (d n : ℕ) : ℕ := Nat.findGreatest (fun x => x ^ d ≤ n) n

/-- The first 32 bits of the fractional part of the `d`-th root of `p`. -/
def fraction (d p : ℕ) : Word := BitVec.ofNat 32 (floorRoot d (p * 2 ^ (32 * d)))

/-- `K₀, …, K₆₃`. -/
def constant (t : ℕ) : Word := fraction 3 (primes.getD t 0)

/-- The working variables, or a hash value. -/
structure Registers where
  a : Word
  b : Word
  c : Word
  d : Word
  e : Word
  f : Word
  g : Word
  h : Word
  deriving DecidableEq

namespace Registers

def toList (v : Registers) : List Word := [v.a, v.b, v.c, v.d, v.e, v.f, v.g, v.h]

def add (v w : Registers) : Registers :=
  ⟨v.a + w.a, v.b + w.b, v.c + w.c, v.d + w.d, v.e + w.e, v.f + w.f, v.g + w.g, v.h + w.h⟩

end Registers

/-- `H⁽⁰⁾`. -/
def initial : Registers :=
  ⟨fraction 2 2, fraction 2 3, fraction 2 5, fraction 2 7, fraction 2 11, fraction 2 13, fraction 2 17, fraction 2 19⟩

/-! ## The hash -/

/-- How many zeros follow the one. -/
def zeros (length : ℕ) : ℕ := (959 - length % 512) % 512

/-- The padded message. -/
def pad (m : List Bool) : List Bool :=
  m ++ (true :: List.replicate (zeros m.length) false) ++ bits (BitVec.ofNat 64 m.length)

/-- The message schedule `W₀, …, W₆₃` of a block. -/
def schedule (block : List Bool) (t : ℕ) : Word :=
  if t < 16 then BitVec.ofNat 32 (value ((block.drop (32 * t)).take 32))
  else smallSigma1 (schedule block (t - 2)) + schedule block (t - 7) + smallSigma0 (schedule block (t - 15)) +
    schedule block (t - 16)

/-- One of the 64 steps. -/
def step (k w : Word) (v : Registers) : Registers :=
  let t1 := v.h + bigSigma1 v.e + ch v.e v.f v.g + k + w
  let t2 := bigSigma0 v.a + maj v.a v.b v.c
  ⟨t1 + t2, v.a, v.b, v.c, v.d + t1, v.e, v.f, v.g⟩

/-- A block is folded into a hash value. -/
def compress (hash : Registers) (block : List Bool) : Registers :=
  ((List.range 64).foldl (fun v t => step (constant t) (schedule block t) v) hash).add hash

/-- The message digest. -/
def digest (m : List Bool) : List Bool := ((blocks 512 (pad m)).foldl compress initial).toList.flatMap bits

/-! ## Facts about bits -/

@[simp] theorem length_bits {w : ℕ} (x : BitVec w) : (bits x).length = w := by
  simp [bits]

theorem value_concat (l : List Bool) (b : Bool) : value (l ++ [b]) = 2 * value l + b.toNat := by
  unfold value
  rw [List.foldl_append]
  rfl

theorem value_append (l m : List Bool) : value (l ++ m) = value l * 2 ^ m.length + value m := by
  induction m using List.reverseRecOn with
  | nil => simp [value]
  | append_singleton m b ih =>
      rw [← List.append_assoc, value_concat, ih, value_concat, List.length_append, List.length_singleton, pow_succ]
      ring

/-- The lowest bits of a word, as a number. -/
theorem value_lowBits {w : ℕ} (x : BitVec w) (n : ℕ) :
    value ((List.range n).reverse.map x.getLsbD) = x.toNat % 2 ^ n := by
  induction n with
  | zero => simp [value, Nat.mod_one]
  | succ n ih =>
      have hbit : value [x.getLsbD n] = (x.getLsbD n).toNat := by simp [value]
      rw [List.range_succ, List.reverse_append, List.map_append, value_append, ih, List.reverse_singleton,
        List.map_singleton, hbit, List.length_map, List.length_reverse, List.length_range, Nat.mod_pow_succ,
        BitVec.getLsbD, Nat.toNat_testBit]
      ring

@[simp] theorem value_bits {w : ℕ} (x : BitVec w) : value (bits x) = x.toNat := by
  unfold bits
  rw [value_lowBits, Nat.mod_eq_of_lt x.isLt]

/-- The bits of a word are those of its pieces, the highest first. -/
theorem bits_pieces {n w : ℕ} (x : BitVec (n * w)) :
    bits x = (List.range n).reverse.flatMap fun i => bits ((x >>> (i * w)).setWidth w) := by
  have hpiece : ∀ i, bits ((x >>> (i * w)).setWidth w) = (List.range w).reverse.map fun j => x.getLsbD (i * w + j) := by
    intro i
    refine List.map_congr_left fun j hj => ?_
    rw [List.mem_reverse, List.mem_range] at hj
    rw [BitVec.getLsbD_setWidth, BitVec.getLsbD_ushiftRight]
    simp [hj]
  have hrange : ∀ m : ℕ, (List.range (m * w)).reverse.map x.getLsbD =
      (List.range m).reverse.flatMap fun i => (List.range w).reverse.map fun j => x.getLsbD (i * w + j) := by
    intro m
    induction m with
    | zero => simp
    | succ m ih =>
        rw [Nat.succ_mul, List.range_add, List.reverse_append, List.map_append, ih, List.range_succ,
          List.reverse_append, List.reverse_singleton, List.singleton_append, List.flatMap_cons, ← List.map_reverse,
          List.map_map]
        rfl
  simp only [hpiece]
  exact hrange n

/-! ## Facts about blocks -/

section Blocks

variable {α β : Type*} {n : ℕ}

theorem blocks_of_lt {l : List α} (h : l.length < n) : blocks n l = [] := by
  unfold blocks
  rw [Nat.div_eq_of_lt h]
  rfl

theorem blocks_append {block l : List α} (hn : 0 < n) (h : block.length = n) :
    blocks n (block ++ l) = block :: blocks n l := by
  unfold blocks
  have hlength : (block ++ l).length / n = l.length / n + 1 := by
    rw [List.length_append, h, Nat.add_div_left _ hn]
  rw [hlength, List.range_succ_eq_map, List.map_cons, List.map_map]
  congr 1
  · rw [Nat.mul_zero, List.drop_zero, List.take_append_of_le_length h.ge, List.take_of_length_le h.le]
  · refine List.map_congr_left fun i _ => ?_
    show ((block ++ l).drop (n * (i + 1))).take n = _
    rw [Nat.mul_succ, Nat.add_comm, ← h, List.drop_length_add_append]

theorem length_flatMap {f : α → List β} {w : ℕ} (hw : ∀ a, (f a).length = w) (l : List α) :
    (l.flatMap f).length = w * l.length := by
  induction l with
  | nil => rfl
  | cons a l ih => rw [List.flatMap_cons, List.length_append, ih, hw, List.length_cons, Nat.mul_succ, Nat.add_comm]

theorem drop_flatMap {f : α → List β} {w : ℕ} (hw : ∀ a, (f a).length = w) (n : ℕ) (l : List α) :
    (l.flatMap f).drop (w * n) = (l.drop n).flatMap f := by
  induction n generalizing l with
  | zero => rfl
  | succ n ih =>
      cases l with
      | nil => simp
      | cons a l =>
          rw [List.flatMap_cons, Nat.mul_succ, Nat.add_comm, ← hw a, List.drop_length_add_append, hw a, ih]
          rfl

theorem take_flatMap {f : α → List β} {w : ℕ} (hw : ∀ a, (f a).length = w) (n : ℕ) (l : List α) :
    (l.flatMap f).take (w * n) = (l.take n).flatMap f := by
  induction n generalizing l with
  | zero => rfl
  | succ n ih =>
      cases l with
      | nil => simp
      | cons a l =>
          rw [List.flatMap_cons, Nat.mul_succ, Nat.add_comm, ← hw a, List.take_length_add_append, hw a, ih]
          rfl

/-- What is written out with the same length for every element can be cut before or
after. -/
theorem blocks_flatMap {f : α → List β} {w : ℕ} (hw : ∀ a, (f a).length = w) (hpos : 0 < w) (hn : 0 < n) (l : List α) :
    blocks (w * n) (l.flatMap f) = (blocks n l).map fun block => block.flatMap f := by
  have hlength := fun l : List α => length_flatMap hw l
  induction hk : l.length using Nat.strong_induction_on generalizing l with
  | _ k ih =>
      rcases Nat.lt_or_ge l.length n with hlt | hge
      · rw [blocks_of_lt hlt, blocks_of_lt]
        · rfl
        · rw [hlength]
          exact Nat.mul_lt_mul_of_pos_left hlt hpos
      · have htake : (l.take n).length = n := List.length_take_of_le hge
        rw [← List.take_append_drop n l, List.flatMap_append, blocks_append (Nat.mul_pos hpos hn) (by rw [hlength, htake]),
          blocks_append hn htake, List.map_cons, ih (l.drop n).length _ _ rfl]
        rw [List.length_drop]
        omega

theorem length_of_mem_blocks {l block : List α} (h : block ∈ blocks n l) : block.length = n := by
  obtain ⟨i, hi, rfl⟩ := List.mem_map.mp h
  rw [List.mem_range] at hi
  have hle : n * (i + 1) ≤ l.length := (Nat.mul_le_mul_left n hi).trans (Nat.mul_div_le l.length n)
  rw [List.length_take, List.length_drop]
  rw [Nat.mul_succ] at hle
  omega

/-- Pieces of the same length, put together and cut again. -/
theorem blocks_flatMap_self {f : α → List β} (hf : ∀ a, (f a).length = n) (hn : 0 < n) (l : List α) :
    blocks n (l.flatMap f) = l.map f := by
  induction l with
  | nil => exact blocks_of_lt hn
  | cons a l ih => rw [List.flatMap_cons, blocks_append hn (hf a), ih, List.map_cons]

end Blocks

/-! ## Facts about the constants -/

theorem floorRoot_eq {d n x : ℕ} (hd : d ≠ 0) (hle : x ^ d ≤ n) (hlt : n < (x + 1) ^ d) : floorRoot d n = x := by
  refine (Nat.findGreatest_eq_iff).mpr ⟨(Nat.le_self_pow hd x).trans hle, fun _ => hle, fun y hxy _ => ?_⟩
  exact Nat.not_le.mpr (hlt.trans_le (Nat.pow_le_pow_left hxy d))

/-- The first 32 bits behind the point of a root whose integral part is `q`. -/
theorem fraction_eq {d p q : ℕ} {k : Word} (hd : d ≠ 0) (hle : (q * 2 ^ 32 + k.toNat) ^ d ≤ p * 2 ^ (32 * d))
    (hlt : p * 2 ^ (32 * d) < (q * 2 ^ 32 + k.toNat + 1) ^ d) : fraction d p = k := by
  unfold fraction
  rw [floorRoot_eq hd hle hlt]
  apply BitVec.eq_of_toNat_eq
  rw [BitVec.toNat_ofNat, Nat.mul_comm, Nat.mul_add_mod, Nat.mod_eq_of_lt k.isLt]

end Fips180
