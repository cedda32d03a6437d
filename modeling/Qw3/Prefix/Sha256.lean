import Mathlib.Logic.Function.Iterate

/-!
# The streaming SHA-256 state

`sha256.hpp`: a copyable hash state that absorbs bytes into a block of 64 and
folds each full block into eight words.

* `Sha256.update`, `Sha256.finishHex`, `Sha256.transform` — the source's
  functions.
* `sha256` — the digest of a whole byte stream; `Sha256.update_append` says that
  cutting the stream into calls changes nothing.
-/

namespace Qw3.Prefix

/-- The eight words of `state_`, which are also the locals `a` to `h` of a
round. -/
structure Words where
  a : BitVec 32
  b : BitVec 32
  c : BitVec 32
  d : BitVec 32
  e : BitVec 32
  f : BitVec 32
  g : BitVec 32
  h : BitVec 32
  deriving DecidableEq

namespace Words

/-- `state_[i] += …` for each word. -/
def add (s t : Words) : Words :=
  ⟨s.a + t.a, s.b + t.b, s.c + t.c, s.d + t.d, s.e + t.e, s.f + t.f, s.g + t.g, s.h + t.h⟩

def toList (s : Words) : List (BitVec 32) := [s.a, s.b, s.c, s.d, s.e, s.f, s.g, s.h]

end Words

theorem empty_block : ([] : List (BitVec 8)).length < 64 := by decide

/-- `Sha256`: `block` holds the `buffered_` bytes of the block that is being
filled. -/
structure Sha256 where
  state : Words := ⟨0x6a09e667, 0xbb67ae85, 0x3c6ef372, 0xa54ff53a,
    0x510e527f, 0x9b05688c, 0x1f83d9ab, 0x5be0cd19⟩
  block : List (BitVec 8) := []
  totalBytes : BitVec 64 := 0
  /-- a full block is folded in at once -/
  room : block.length < 64 := by exact empty_block
  deriving DecidableEq

namespace Sha256

/-- The round constants. -/
def k : List (BitVec 32) := [
  0x428a2f98, 0x71374491, 0xb5c0fbcf, 0xe9b5dba5,
  0x3956c25b, 0x59f111f1, 0x923f82a4, 0xab1c5ed5,
  0xd807aa98, 0x12835b01, 0x243185be, 0x550c7dc3,
  0x72be5d74, 0x80deb1fe, 0x9bdc06a7, 0xc19bf174,
  0xe49b69c1, 0xefbe4786, 0x0fc19dc6, 0x240ca1cc,
  0x2de92c6f, 0x4a7484aa, 0x5cb0a9dc, 0x76f988da,
  0x983e5152, 0xa831c66d, 0xb00327c8, 0xbf597fc7,
  0xc6e00bf3, 0xd5a79147, 0x06ca6351, 0x14292967,
  0x27b70a85, 0x2e1b2138, 0x4d2c6dfc, 0x53380d13,
  0x650a7354, 0x766a0abb, 0x81c2c92e, 0x92722c85,
  0xa2bfe8a1, 0xa81a664b, 0xc24b8b70, 0xc76c51a3,
  0xd192e819, 0xd6990624, 0xf40e3585, 0x106aa070,
  0x19a4c116, 0x1e376c08, 0x2748774c, 0x34b0bcb5,
  0x391c0cb3, 0x4ed8aa4a, 0x5b9cca4f, 0x682e6ff3,
  0x748f82ee, 0x78a5636f, 0x84c87814, 0x8cc70208,
  0x90befffa, 0xa4506ceb, 0xbef9a3f7, 0xc67178f2]

/-- `rotr`. -/
def rotr (x : BitVec 32) (n : ℕ) : BitVec 32 := (x >>> n) ||| (x <<< (32 - n))

/-- Word `i` of a block, most significant byte first. -/
def word (p : List (BitVec 8)) (i : ℕ) : BitVec 32 :=
  ((p.getD (i * 4) 0).setWidth 32 <<< 24) ||| ((p.getD (i * 4 + 1) 0).setWidth 32 <<< 16) |||
    ((p.getD (i * 4 + 2) 0).setWidth 32 <<< 8) ||| (p.getD (i * 4 + 3) 0).setWidth 32

/-- One more word of the schedule. -/
def extend (w : List (BitVec 32)) : List (BitVec 32) :=
  let i := w.length
  let w15 := w.getD (i - 15) 0
  let w2 := w.getD (i - 2) 0
  let s0 := rotr w15 7 ^^^ rotr w15 18 ^^^ (w15 >>> 3)
  let s1 := rotr w2 17 ^^^ rotr w2 19 ^^^ (w2 >>> 10)
  w ++ [w.getD (i - 16) 0 + s0 + w.getD (i - 7) 0 + s1]

/-- The message schedule. -/
def schedule (p : List (BitVec 8)) : List (BitVec 32) :=
  extend^[48] ((List.range 16).map (word p))

/-- One round, with its constant and its word of the schedule. -/
def round (v : Words) (kw : BitVec 32 × BitVec 32) : Words :=
  let s1 := rotr v.e 6 ^^^ rotr v.e 11 ^^^ rotr v.e 25
  let ch := (v.e &&& v.f) ^^^ (~~~v.e &&& v.g)
  let t1 := v.h + s1 + ch + kw.1 + kw.2
  let s0 := rotr v.a 2 ^^^ rotr v.a 13 ^^^ rotr v.a 22
  let maj := (v.a &&& v.b) ^^^ (v.a &&& v.c) ^^^ (v.b &&& v.c)
  let t2 := s0 + maj
  ⟨t1 + t2, v.a, v.b, v.c, v.d + t1, v.e, v.f, v.g⟩

/-- `transform`. -/
def transform (state : Words) (p : List (BitVec 8)) : Words :=
  state.add ((k.zip (schedule p)).foldl round state)

/-- One byte into the block. -/
def absorb (s : Sha256) (byte : BitVec 8) : Sha256 :=
  if h : s.block.length + 1 < 64 then
    { s with block := s.block ++ [byte], totalBytes := s.totalBytes + 1, room := by simpa using h }
  else
    { state := transform s.state (s.block ++ [byte])
      block := []
      totalBytes := s.totalBytes + 1
      room := by decide }

/-- `update`; the source copies the bytes in as large pieces as the block
takes. -/
def update (s : Sha256) (data : List (BitVec 8)) : Sha256 := data.foldl absorb s

/-- `while (buffered_ != 56) update(&zero, 1)`. -/
def pad : ℕ → Sha256 → Sha256
  | 0, s => s
  | fuel + 1, s => if s.block.length = 56 then s else pad fuel (s.update [0])

/-- `std::hex << std::setw(8)`: eight digits with leading zeros. -/
def hexDigits (v : BitVec 32) : List Char :=
  (List.range 8).reverse.map fun i => Nat.digitChar ((v >>> (i * 4)).toNat % 16)

/-- `finish_hex`: the characters of the digest, after the padding. -/
def finishHex (s : Sha256) : List Char :=
  let bitCount := s.totalBytes * 8
  let padded := pad 64 (s.update [0x80])
  let length := (List.range 8).reverse.map fun i => (bitCount >>> (i * 8)).setWidth 8
  (padded.update length).state.toList.flatMap hexDigits

/-- Cutting a stream into two calls. -/
@[simp] theorem update_append (s : Sha256) (x y : List (BitVec 8)) :
    s.update (x ++ y) = (s.update x).update y :=
  List.foldl_append

/-- The bytes of a list of values, one call for each. -/
theorem foldl_update {α : Type*} (bytes : α → List (BitVec 8)) (s : Sha256) (as : List α) :
    as.foldl (fun s a => s.update (bytes a)) s = s.update (as.flatMap bytes) := by
  induction as generalizing s with
  | nil => rfl
  | cons a as ih => rw [List.foldl_cons, ih, List.flatMap_cons, update_append]

theorem length_absorb (s : Sha256) (byte : BitVec 8) :
    (s.absorb byte).block.length = (s.block.length + 1) % 64 := by
  have hroom := s.room
  unfold absorb
  split
  · rw [List.length_append, List.length_singleton]
    omega
  · rw [List.length_nil]
    omega

end Sha256

/-- The digest of a byte stream. -/
def sha256 (stream : List (BitVec 8)) : List Char := (({} : Sha256).update stream).finishHex

end Qw3.Prefix
