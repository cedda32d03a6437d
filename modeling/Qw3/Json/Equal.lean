import Mathlib.Tactic
import Qw3.Json.Value

/-!
# Equality of JSON values

`operator==` of `nlohmann::json`, which compares numbers across their kinds, and
the finer relation of two values whose numbers are written alike.

* `Json.agree` — the recursion through arrays and objects, over a relation of
  numbers.
* `Json.equal` — `operator==`; `Json.alike` — equal integers or the same double.
* `Double.eq_of_value_eq` — a finite double is determined by its sign and value.
-/

namespace Qw3

namespace Double

/-- The magnitude of a finite double in units of `2 ^ -1074`. -/
def magnitude (x : Double) : ℕ :=
  if x.exponent = 0 then x.fraction else (2 ^ 52 + x.fraction) * 2 ^ (x.exponent - 1)

/-- `operator==` of two doubles. -/
def equal (x y : Double) : Bool :=
  if x.isFinite && y.isFinite then x.value == y.value
  else x == y && (x.isFinite || x.fraction = 0)

/-- `static_cast<double>` of an integer: the nearest number of 53 bits, a tie to
the even one. -/
def roundInteger (n : ℤ) : ℚ :=
  let shift := n.natAbs.log2 - 52
  let quotient := n.natAbs / 2 ^ shift
  let remainder := n.natAbs % 2 ^ shift
  let up := 2 ^ shift < 2 * remainder ∨ 2 ^ shift = 2 * remainder ∧ quotient % 2 = 1
  n.sign * ((if up then quotient + 1 else quotient) * 2 ^ shift : ℕ)

/-- Comparison of a double with an integer, which is cast. -/
def equalInteger (x : Double) (n : ℤ) : Bool := x.isFinite && x.value == roundInteger n

theorem fraction_lt (x : Double) : x.fraction < 2 ^ 52 :=
  (x.bits.extractLsb' 0 52).isLt

/-- A finite double is its sign times its magnitude. -/
theorem value_eq_magnitude (x : Double) :
    x.value = (if x.bits.msb then -1 else 1) * ((x.magnitude : ℚ) * 2 ^ (-1074 : ℤ)) := by
  rw [value, magnitude]
  congr 1
  split
  next => rfl
  next h =>
    have hexp : ((x.exponent : ℤ) - 1075) = ((x.exponent - 1 : ℕ) : ℤ) + (-1074) := by omega
    rw [hexp, zpow_add₀ (by norm_num), zpow_natCast]
    generalize (2 : ℚ) ^ (-1074 : ℤ) = unit
    push_cast
    ring

/-- A greater exponent is a greater magnitude. -/
theorem magnitude_lt {x y : Double} (h : x.exponent < y.exponent) :
    x.magnitude < y.magnitude := by
  have hx := x.fraction_lt
  have hy : y.exponent ≠ 0 := by omega
  rw [magnitude, magnitude, if_neg hy]
  split
  next =>
    calc x.fraction < 2 ^ 52 := hx
      _ ≤ 2 ^ 52 + y.fraction := Nat.le_add_right _ _
      _ ≤ (2 ^ 52 + y.fraction) * 2 ^ (y.exponent - 1) :=
        Nat.le_mul_of_pos_right _ (by positivity)
  next =>
    have hpow : 2 ^ (y.exponent - 1) = 2 ^ (x.exponent - 1) * 2 ^ (y.exponent - x.exponent) := by
      rw [← pow_add]
      congr 1
      omega
    have htwo : 2 ≤ 2 ^ (y.exponent - x.exponent) := Nat.le_self_pow (by omega) 2
    calc (2 ^ 52 + x.fraction) * 2 ^ (x.exponent - 1)
        < 2 ^ 53 * 2 ^ (x.exponent - 1) := Nat.mul_lt_mul_of_pos_right (by omega) (by positivity)
      _ = 2 ^ 52 * (2 ^ (x.exponent - 1) * 2) := by ring
      _ ≤ 2 ^ 52 * (2 ^ (x.exponent - 1) * 2 ^ (y.exponent - x.exponent)) := by gcongr
      _ ≤ (2 ^ 52 + y.fraction) * 2 ^ (y.exponent - 1) := by
        rw [hpow]
        exact Nat.mul_le_mul_right _ (Nat.le_add_right _ _)

/-- The magnitude determines the exponent and the fraction. -/
theorem eq_of_magnitude_eq {x y : Double} (h : x.magnitude = y.magnitude) :
    x.exponent = y.exponent ∧ x.fraction = y.fraction := by
  have hexp : x.exponent = y.exponent := by
    rcases Nat.lt_trichotomy x.exponent y.exponent with hlt | heq | hgt
    · exact absurd (magnitude_lt hlt) (by omega)
    · exact heq
    · exact absurd (magnitude_lt hgt) (by omega)
  refine ⟨hexp, ?_⟩
  rw [magnitude, magnitude, hexp] at h
  split at h
  next => exact h
  next =>
    have := Nat.eq_of_mul_eq_mul_right (by positivity) h
    omega

/-- The bits are the sign, the exponent and the fraction. -/
theorem bits_toNat (x : Double) :
    x.bits.toNat = (if x.bits.msb then 2 ^ 63 else 0) + x.exponent * 2 ^ 52 + x.fraction := by
  have hlt := x.bits.isLt
  rw [BitVec.msb_eq_decide, exponent, fraction]
  simp only [BitVec.extractLsb'_toNat, Nat.shiftRight_eq_div_pow, pow_zero, Nat.div_one,
    decide_eq_true_eq]
  split <;> omega

theorem ext_fields {x y : Double} (hs : x.bits.msb = y.bits.msb)
    (he : x.exponent = y.exponent) (hf : x.fraction = y.fraction) : x = y := by
  cases x with
  | mk a =>
    cases y with
    | mk b =>
      congr 1
      apply BitVec.eq_of_toNat_eq
      have ha := bits_toNat ⟨a⟩
      have hb := bits_toNat ⟨b⟩
      rw [ha, hb, hs, he, hf]

/-- A finite double is determined by its sign and its value. -/
theorem eq_of_value_eq {x y : Double} (hs : x.bits.msb = y.bits.msb) (h : x.value = y.value) :
    x = y := by
  rw [value_eq_magnitude, value_eq_magnitude, hs] at h
  have hsign : (if y.bits.msb then -1 else 1 : ℚ) ≠ 0 := by split <;> norm_num
  have hmag : (x.magnitude : ℚ) = y.magnitude :=
    mul_right_cancel₀ (by positivity) (mul_left_cancel₀ hsign h)
  obtain ⟨he, hf⟩ := eq_of_magnitude_eq (Nat.cast_injective hmag)
  exact ext_fields hs he hf

end Double

/-- A number of a `basic_json`, of one of three kinds. -/
inductive Number where
  | integer (value : BitVec 64)
  | unsigned (value : BitVec 64)
  | float (value : Double)
  deriving DecidableEq

namespace Number

/-- `operator==`: a double against an integer casts the integer, an unsigned
integer against an integer casts the unsigned one. -/
def equal : Number → Number → Bool
  | integer a, integer b => a == b
  | unsigned a, unsigned b => a == b
  | float x, float y => x.equal y
  | integer a, float y => y.equalInteger a.toInt
  | float x, integer b => x.equalInteger b.toInt
  | unsigned a, float y => y.equalInteger a.toNat
  | float x, unsigned b => x.equalInteger b.toNat
  | unsigned a, integer b => a == b
  | integer a, unsigned b => a == b

/-- The same integer, or the same double. -/
def alike : Number → Number → Bool
  | integer a, integer b => a == b
  | unsigned a, unsigned b => a == b
  | float x, float y => x == y
  | unsigned a, integer b => (a.toNat : ℤ) == b.toInt
  | integer a, unsigned b => a.toInt == (b.toNat : ℤ)
  | _, _ => false

end Number

namespace Json

def number? : Json → Option Number
  | integer n => some (.integer n)
  | unsigned n => some (.unsigned n)
  | float x => some (.float x)
  | _ => none

section Agree

variable (number : Number → Number → Bool)

mutual

/-- Two values of the same shape whose numbers are related. -/
def agree : Json → Json → Bool
  | null, null => true
  | boolean x, boolean y => x == y
  | string s, string t => s == t
  | array xs, array ys => agreeItems xs ys
  | object ms, object ns => agreeMembers ms ns
  | integer a, b => (b.number?.map (number (.integer a))).getD false
  | unsigned a, b => (b.number?.map (number (.unsigned a))).getD false
  | float x, b => (b.number?.map (number (.float x))).getD false
  | _, _ => false

def agreeItems : List Json → List Json → Bool
  | [], [] => true
  | x :: xs, y :: ys => agree x y && agreeItems xs ys
  | _, _ => false

def agreeMembers : List (String × Json) → List (String × Json) → Bool
  | [], [] => true
  | (k, x) :: ms, (l, y) :: ns => k == l && agree x y && agreeMembers ms ns
  | _, _ => false

end

end Agree

theorem agreeMembers_length {number : Number → Number → Bool} {ms ns : List (String × Json)}
    (h : agreeMembers number ms ns = true) : ms.length = ns.length := by
  induction ms generalizing ns with
  | nil =>
    cases ns with
    | nil => rfl
    | cons n ns => cases h
  | cons m ms ih =>
    cases ns with
    | nil => cases h
    | cons n ns =>
      rw [agreeMembers, Bool.and_eq_true] at h
      rw [List.length_cons, List.length_cons, ih h.2]

/-- `operator==`. -/
def equal : Json → Json → Bool := agree Number.equal

/-- `operator==` of two arrays' items. -/
def equalItems : List Json → List Json → Bool := agreeItems Number.equal

/-- Equal, with every number written alike. -/
def alike : Json → Json → Bool := agree Number.alike

end Json

end Qw3
