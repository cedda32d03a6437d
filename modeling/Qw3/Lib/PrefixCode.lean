import Mathlib.Data.List.Basic
import Mathlib.Data.Vector.Basic
import Mathlib.Tactic.NormNum

/-!
# Codes that can be read back from the front of a stream

* `PrefixCode encode` — from a stream that starts with a code word, the word's
  value and the rest of the stream are determined.
* `PrefixCode.append`, `PrefixCode.flatMap` — one word after another.
* `littleEndian` — the low bytes of a bit vector, least significant first;
  `prefixCode_littleEndian` says that enough of them determine it, and
  `ofLittleEndian` reads them back.
-/

universe u v w

/-- A stream that starts with a word of the code says which one, and where the
rest begins. -/
def PrefixCode {α : Type u} {β : Type v} (encode : α → List β) : Prop :=
  ∀ a b s t, encode a ++ s = encode b ++ t → a = b ∧ s = t

namespace PrefixCode

variable {α : Type u} {β : Type v} {γ : Type w} {encode : α → List β} {f : γ → List β}

/-- Words of one length are a prefix code when they differ. -/
theorem of_length {n : ℕ} (hlen : ∀ a, (encode a).length = n) (hinj : Function.Injective encode) :
    PrefixCode encode := by
  intro a b s t h
  obtain ⟨hab, hst⟩ := List.append_inj h ((hlen a).trans (hlen b).symm)
  exact ⟨hinj hab, hst⟩

/-- A word for each half of a pair. -/
theorem append (he : PrefixCode encode) (hf : PrefixCode f) :
    PrefixCode fun p : α × γ => encode p.1 ++ f p.2 := by
  intro p q s t h
  rw [List.append_assoc, List.append_assoc] at h
  obtain ⟨h₁, h⟩ := he _ _ _ _ h
  obtain ⟨h₂, h⟩ := hf _ _ _ _ h
  exact ⟨Prod.ext h₁ h₂, h⟩

/-- What an injection into the code's values inherits. -/
theorem comp (he : PrefixCode encode) {g : γ → α} (hg : Function.Injective g) :
    PrefixCode fun c => encode (g c) := by
  intro c d s t h
  obtain ⟨hcd, hst⟩ := he _ _ _ _ h
  exact ⟨hg hcd, hst⟩

/-- As many words on either side: the same values. -/
theorem flatMap_append (he : PrefixCode encode) {as bs : List α} (hlen : as.length = bs.length)
    {s t : List β} (h : as.flatMap encode ++ s = bs.flatMap encode ++ t) : as = bs ∧ s = t := by
  induction as generalizing bs with
  | nil =>
      rw [List.eq_nil_of_length_eq_zero hlen.symm] at h ⊢
      exact ⟨rfl, h⟩
  | cons a as ih =>
      cases bs with
      | nil => exact absurd hlen (Nat.succ_ne_zero _)
      | cons b bs =>
          rw [List.flatMap_cons, List.flatMap_cons, List.append_assoc, List.append_assoc] at h
          obtain ⟨hab, h⟩ := he _ _ _ _ h
          obtain ⟨habs, h⟩ := ih (Nat.succ.inj hlen) h
          exact ⟨congrArg₂ _ hab habs, h⟩

theorem flatMap (he : PrefixCode encode) {as bs : List α} (hlen : as.length = bs.length)
    (h : as.flatMap encode = bs.flatMap encode) : as = bs :=
  (he.flatMap_append hlen (s := []) (t := []) (by rw [h])).1

/-- A word for each element of a vector. -/
theorem vector (he : PrefixCode encode) (n : ℕ) :
    PrefixCode fun v : Vector α n => v.toList.flatMap encode := by
  intro v w s t h
  obtain ⟨hvw, hst⟩ := he.flatMap_append (by simp) h
  exact ⟨Vector.toList_inj.mp hvw, hst⟩

end PrefixCode

/-! ## Little-endian bytes -/

/-- The `count` low bytes of a value, least significant first. -/
def littleEndian {n : ℕ} (count : ℕ) (value : BitVec n) : List (BitVec 8) :=
  (List.range count).map fun i => (value >>> (8 * i)).setWidth 8

@[simp] theorem length_littleEndian {n : ℕ} (count : ℕ) (value : BitVec n) :
    (littleEndian count value).length = count := by
  simp [littleEndian]

/-- Bit `j` of a value is a bit of byte `j / 8`. -/
theorem getLsbD_of_littleEndian_eq {n count j : ℕ} {x y : BitVec n}
    (h : littleEndian count x = littleEndian count y) (hj : j < 8 * count) :
    x.getLsbD j = y.getLsbD j := by
  have hbyte : (x >>> (8 * (j / 8))).setWidth 8 = (y >>> (8 * (j / 8))).setWidth 8 := by
    refine List.map_inj_left.mp h _ (List.mem_range.mpr ?_)
    omega
  have hbit := congrArg (fun b : BitVec 8 => b.getLsbD (j % 8)) hbyte
  simpa [Nat.mod_lt, Nat.div_add_mod] using hbit

/-- A value widened to the argument of the serializer is determined by its own
bytes. -/
theorem prefixCode_littleEndian {n m c : ℕ} (hn : n ≤ 8 * c) (hm : n ≤ m) :
    PrefixCode fun x : BitVec n => littleEndian c (x.setWidth m) := by
  refine PrefixCode.of_length (fun x => length_littleEndian c _) ?_
  intro x y h
  apply BitVec.eq_of_getLsbD_eq
  intro j hj
  have hbit := getLsbD_of_littleEndian_eq h (hj.trans_le hn)
  simpa [hj.trans_le hm] using hbit

/-- The number whose bytes these are, least significant first. -/
def ofLittleEndian : List (BitVec 8) → ℕ
  | [] => 0
  | b :: bytes => b.toNat + 256 * ofLittleEndian bytes

theorem littleEndian_succ {n : ℕ} (count : ℕ) (value : BitVec n) :
    littleEndian (count + 1) value = value.setWidth 8 :: littleEndian count (value >>> 8) := by
  unfold littleEndian
  rw [List.range_succ_eq_map, List.map_cons, List.map_map]
  congr 1
  apply List.map_congr_left
  intro i _
  rw [Function.comp_apply, Nat.mul_succ, Nat.add_comm, BitVec.shiftRight_add]

/-- Reading the bytes of a value back. -/
theorem ofLittleEndian_littleEndian {n : ℕ} (count : ℕ) (value : BitVec n) :
    ofLittleEndian (littleEndian count value) = value.toNat % 256 ^ count := by
  induction count generalizing value with
  | zero => simp [littleEndian, ofLittleEndian, Nat.mod_one]
  | succ count ih =>
      have hbyte : (value >>> 8).toNat = value.toNat / 256 := by
        rw [BitVec.toNat_ushiftRight, Nat.shiftRight_eq_div_pow]
      rw [littleEndian_succ, ofLittleEndian, ih, BitVec.toNat_setWidth, hbyte,
        Nat.pow_succ' (n := count), Nat.mod_mul]

/-- Enough bytes of a value determine it. -/
theorem ofNat_littleEndian {n count : ℕ} (hn : n ≤ 8 * count) (value : BitVec n) :
    BitVec.ofNat n (ofLittleEndian (littleEndian count value)) = value := by
  apply BitVec.eq_of_toNat_eq
  have hpow : 2 ^ n ≤ 256 ^ count := by
    rw [show (256 : ℕ) = 2 ^ 8 by norm_num, ← Nat.pow_mul]
    exact Nat.pow_le_pow_right (by norm_num) hn
  rw [ofLittleEndian_littleEndian, Nat.mod_eq_of_lt (value.isLt.trans_le hpow), BitVec.toNat_ofNat,
    Nat.mod_eq_of_lt value.isLt]

theorem ofLittleEndian_lt (b : List (BitVec 8)) : ofLittleEndian b < 256 ^ b.length := by
  induction b with
  | nil => exact Nat.one_pos
  | cons x b ih =>
      have hx := x.isLt
      rw [ofLittleEndian, List.length_cons, Nat.pow_succ]
      omega

/-- The value of some bytes has these bytes. -/
theorem littleEndian_of_toNat {n : ℕ} {value : BitVec n} {b : List (BitVec 8)}
    (h : value.toNat = ofLittleEndian b) : littleEndian b.length value = b := by
  induction b generalizing value with
  | nil => rfl
  | cons x b ih =>
      have hx := x.isLt
      rw [ofLittleEndian] at h
      have hbyte : (value >>> 8).toNat = ofLittleEndian b := by
        rw [BitVec.toNat_ushiftRight, Nat.shiftRight_eq_div_pow, h]
        omega
      rw [List.length_cons, littleEndian_succ, ih hbyte]
      congr 1
      apply BitVec.eq_of_toNat_eq
      rw [BitVec.toNat_setWidth, h]
      omega

/-- Reading bytes as a word loses none of them. -/
theorem littleEndian_ofNat {n : ℕ} {b : List (BitVec 8)} (hn : 8 * b.length ≤ n) :
    littleEndian b.length (BitVec.ofNat n (ofLittleEndian b)) = b := by
  apply littleEndian_of_toNat
  have hpow : 256 ^ b.length ≤ 2 ^ n := by
    rw [show (256 : ℕ) = 2 ^ 8 by norm_num, ← Nat.pow_mul]
    exact Nat.pow_le_pow_right (by norm_num) hn
  rw [BitVec.toNat_ofNat, Nat.mod_eq_of_lt ((ofLittleEndian_lt b).trans_le hpow)]
