import Mathlib.Data.Nat.Bitwise

/-!
# The flags of a block

The bits of `KvMemGc::Flags` and `KvMemRepositoryGc::Indexed`, as the masks the
source tests and sets them with.
-/

namespace Qw3.Gc

def sealedBit : ℕ := 2
def gpuBit : ℕ := 4
def ioBit : ℕ := 8
def valueBackedBit : ℕ := 16
def rawBackedBit : ℕ := 32
def anchorBit : ℕ := 64
def duplicateBit : ℕ := 128
def supersededBit : ℕ := 256
def mandatoryBit : ℕ := 512
def indexedBit : ℕ := 2 ^ 12

/-- `flags & ~mask`. -/
def clearFlags (flags mask : ℕ) : ℕ := Nat.ldiff flags mask

/-- What was cleared is no longer there. -/
theorem clearFlags_and (flags mask : ℕ) : clearFlags flags mask &&& mask = 0 := by
  refine Nat.eq_of_testBit_eq fun i => ?_
  rw [clearFlags, Nat.testBit_and, Nat.testBit_ldiff, Nat.zero_testBit]
  cases flags.testBit i <;> cases mask.testBit i <;> rfl

/-- `(flags & ~mask) | (values & mask)`. -/
def assignFlags (flags mask values : ℕ) : ℕ := clearFlags flags mask ||| (values &&& mask)

/-- What a change of a block's tokens clears: `RawBacked | ValueBacked | Indexed`. -/
def backingFlags : ℕ := rawBackedBit ||| valueBackedBit ||| indexedBit

end Qw3.Gc
