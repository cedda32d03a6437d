import Mathlib.Tactic.IntervalCases
import Qw3.Lib.Fips180
import Qw3.Lib.Machine
import Qw3.Prefix.Sha256

/-!
# The streaming state computes SHA-256

* `Sha256.updatePieces`, `Sha256.finished` — `update` with its copies, and the state that
  `finish_hex` prints.
* `transform_eq` — a block is folded in as the standard says.
* `finishHex_update` — the digest of what a fresh state was given.
* `hashers` — hash states that are created, updated, copied and finished in any order.
* `streamingSha256` — **each gives the digest of the bytes that it received**.
-/

namespace Qw3.Prefix

open Fips180 (Registers bits value blocks)

namespace Words

/-- The words as the standard's variables. -/
def registers (s : Words) : Registers := ⟨s.a, s.b, s.c, s.d, s.e, s.f, s.g, s.h⟩

theorem registers_toList (s : Words) : s.registers.toList = s.toList := rfl

end Words

namespace Sha256

/-! ## Constants and functions -/

theorem rotr_eq {n : ℕ} (x : BitVec 32) (hn : n < 32) : rotr x n = x.rotateRight n := by
  unfold rotr BitVec.rotateRight BitVec.rotateRightAux
  rw [Nat.mod_eq_of_lt hn]

/-- Each round constant is the fraction of its root. -/
theorem fraction_of_mem : ∀ pk ∈ Fips180.primes.zip k, Fips180.fraction 3 pk.1 = pk.2 := by
  have hroots : ∀ pk ∈ Fips180.primes.zip k, ∃ q < 7, (q * 2 ^ 32 + pk.2.toNat) ^ 3 ≤ pk.1 * 2 ^ (32 * 3) ∧
      pk.1 * 2 ^ (32 * 3) < (q * 2 ^ 32 + pk.2.toNat + 1) ^ 3 := by
    decide +kernel
  intro pk hpk
  obtain ⟨q, -, hle, hlt⟩ := hroots pk hpk
  exact Fips180.fraction_eq (by decide) hle hlt

theorem k_eq : k = (List.range 64).map Fips180.constant := by
  have hmap : Fips180.primes.map (Fips180.fraction 3) = k := by
    calc Fips180.primes.map (Fips180.fraction 3)
        = ((Fips180.primes.zip k).map Prod.fst).map (Fips180.fraction 3) := by
          rw [List.map_fst_zip (by decide)]
      _ = (Fips180.primes.zip k).map Prod.snd := by
          rw [List.map_map]
          exact List.map_congr_left fraction_of_mem
      _ = k := List.map_snd_zip (by decide)
  have hrange : (List.range 64).map (fun t => Fips180.primes.getD t 0) = Fips180.primes := by decide
  rw [← hmap]
  conv_lhs => rw [← hrange]
  rw [List.map_map]
  exact List.map_congr_left fun t _ => rfl

theorem registers_initial : ({} : Sha256).state.registers = Fips180.initial := by
  have hroot : ∀ (p q : ℕ) (v : BitVec 32), (q * 2 ^ 32 + v.toNat) ^ 2 ≤ p * 2 ^ (32 * 2) →
      p * 2 ^ (32 * 2) < (q * 2 ^ 32 + v.toNat + 1) ^ 2 → Fips180.fraction 2 p = v := fun _ _ _ =>
    Fips180.fraction_eq (by decide)
  unfold Fips180.initial
  rw [hroot 2 1 0x6a09e667 (by decide) (by decide), hroot 3 1 0xbb67ae85 (by decide) (by decide),
    hroot 5 2 0x3c6ef372 (by decide) (by decide), hroot 7 2 0xa54ff53a (by decide) (by decide),
    hroot 11 3 0x510e527f (by decide) (by decide), hroot 13 3 0x9b05688c (by decide) (by decide),
    hroot 17 4 0x1f83d9ab (by decide) (by decide), hroot 19 4 0x5be0cd19 (by decide) (by decide)]
  rfl

/-! ## One block -/

/-- Four bytes side by side are the number that they stand for. -/
theorem join_eq (b0 b1 b2 b3 : BitVec 8) :
    (b0.setWidth 32 <<< 24) ||| (b1.setWidth 32 <<< 16) ||| (b2.setWidth 32 <<< 8) ||| b3.setWidth 32 =
      BitVec.ofNat 32 (((b0.toNat * 2 ^ 8 + b1.toNat) * 2 ^ 8 + b2.toNat) * 2 ^ 8 + b3.toNat) := by
  have h0 := b0.isLt
  have h1 := b1.isLt
  have h2 := b2.isLt
  have h3 := b3.isLt
  have hshift : ∀ (b : BitVec 8) (n : ℕ), n ≤ 24 → (b.setWidth 32 <<< n).toNat = 2 ^ n * b.toNat := by
    intro b n hn
    have hlt : 2 ^ n * b.toNat < 2 ^ 32 := by
      calc 2 ^ n * b.toNat < 2 ^ n * 2 ^ 8 := Nat.mul_lt_mul_of_pos_left b.isLt (Nat.two_pow_pos n)
        _ ≤ 2 ^ 24 * 2 ^ 8 := Nat.mul_le_mul_right _ (Nat.pow_le_pow_right (by decide) hn)
        _ = 2 ^ 32 := by decide
    rw [BitVec.toNat_shiftLeft, BitVec.toNat_setWidth, Nat.mod_eq_of_lt (b.isLt.trans (by decide)),
      Nat.shiftLeft_eq, Nat.mul_comm, Nat.mod_eq_of_lt hlt]
  apply BitVec.eq_of_toNat_eq
  rw [BitVec.toNat_or, BitVec.toNat_or, BitVec.toNat_or, hshift _ 24 le_rfl, hshift _ 16 (by decide),
    hshift _ 8 (by decide), BitVec.toNat_setWidth, Nat.mod_eq_of_lt (h3.trans (by decide)), BitVec.toNat_ofNat,
    ← Nat.two_pow_add_eq_or_of_lt (show 2 ^ 16 * b1.toNat < 2 ^ 24 by omega),
    show 2 ^ 24 * b0.toNat + 2 ^ 16 * b1.toNat = 2 ^ 16 * (2 ^ 8 * b0.toNat + b1.toNat) by omega,
    ← Nat.two_pow_add_eq_or_of_lt (show 2 ^ 8 * b2.toNat < 2 ^ 16 by omega),
    show 2 ^ 16 * (2 ^ 8 * b0.toNat + b1.toNat) + 2 ^ 8 * b2.toNat =
      2 ^ 8 * (2 ^ 16 * b0.toNat + 2 ^ 8 * b1.toNat + b2.toNat) by omega,
    ← Nat.two_pow_add_eq_or_of_lt (show b3.toNat < 2 ^ 8 by omega)]
  omega

/-- Four bytes are a word, the most significant first. -/
theorem word_eq {p : List (BitVec 8)} (hp : p.length = 64) {t : ℕ} (ht : t < 16) :
    word p t = BitVec.ofNat 32 (value (((Fips180.ofBytes p).drop (32 * t)).take 32)) := by
  have hbits : ∀ b : BitVec 8, (bits b).length = 8 := fun b => Fips180.length_bits b
  have hfour : (p.drop (4 * t)).take 4 =
      [p.getD (t * 4) 0, p.getD (t * 4 + 1) 0, p.getD (t * 4 + 2) 0, p.getD (t * 4 + 3) 0] := by
    have hget : ∀ i < 4, t * 4 + i < p.length := fun i hi => by omega
    have hlength : ((p.drop (4 * t)).take 4).length = 4 := by
      rw [List.length_take, List.length_drop]
      omega
    refine List.ext_getElem hlength fun i hi _ => ?_
    rw [hlength] at hi
    rw [List.getElem_take, List.getElem_drop]
    interval_cases i
    · simp [List.getD_eq_getElem?_getD, show t * 4 < p.length by omega, Nat.mul_comm]
    · simp [List.getD_eq_getElem?_getD, hget 1, Nat.mul_comm]
    · simp [List.getD_eq_getElem?_getD, hget 2, Nat.mul_comm]
    · simp [List.getD_eq_getElem?_getD, hget 3, Nat.mul_comm]
  have hdrop : (Fips180.ofBytes p).drop (32 * t) = Fips180.ofBytes (p.drop (4 * t)) := by
    rw [show 32 * t = 8 * (4 * t) by omega]
    exact Fips180.drop_flatMap hbits _ p
  have htake : (Fips180.ofBytes (p.drop (4 * t))).take 32 = Fips180.ofBytes ((p.drop (4 * t)).take 4) :=
    Fips180.take_flatMap hbits 4 _
  rw [hdrop, htake, hfour]
  unfold word Fips180.ofBytes
  rw [join_eq, List.flatMap_cons, List.flatMap_cons, List.flatMap_cons, List.flatMap_cons, List.flatMap_nil,
    List.append_nil, Fips180.value_append, Fips180.value_append, Fips180.value_append]
  simp only [Fips180.value_bits, List.length_append, Fips180.length_bits]
  exact congrArg _ (by ring)

/-- The words so far are those of the standard's schedule. -/
theorem extend_iterate {p : List (BitVec 8)} (hp : p.length = 64) (n : ℕ) :
    extend^[n] ((List.range 16).map (word p)) = (List.range (16 + n)).map (Fips180.schedule (Fips180.ofBytes p)) := by
  induction n with
  | zero =>
      refine List.map_congr_left fun t ht => ?_
      rw [word_eq hp (List.mem_range.mp ht)]
      unfold Fips180.schedule
      rw [if_pos (List.mem_range.mp ht)]
  | succ n ih =>
      rw [Function.iterate_succ_apply', ih, ← Nat.add_assoc, List.range_succ, List.map_append]
      unfold extend
      dsimp only
      congr 1
      have hget : ∀ i, i < 16 + n → ((List.range (16 + n)).map (Fips180.schedule (Fips180.ofBytes p))).getD i 0 =
          Fips180.schedule (Fips180.ofBytes p) i := by
        intro i hi
        rw [List.getD_eq_getElem?_getD, List.getElem?_map, List.getElem?_range hi]
        rfl
      rw [List.map_singleton, List.length_map, List.length_range, hget _ (by omega), hget _ (by omega),
        hget _ (by omega), hget _ (by omega), rotr_eq _ (by decide), rotr_eq _ (by decide), rotr_eq _ (by decide),
        rotr_eq _ (by decide)]
      conv_rhs => unfold Fips180.schedule
      rw [if_neg (by omega)]
      unfold Fips180.smallSigma0 Fips180.smallSigma1
      congr 1
      ac_rfl

theorem round_eq (v : Words) (kw : BitVec 32 × BitVec 32) :
    (round v kw).registers = Fips180.step kw.1 kw.2 v.registers := by
  unfold round
  rw [rotr_eq _ (by decide), rotr_eq _ (by decide), rotr_eq _ (by decide), rotr_eq _ (by decide),
    rotr_eq _ (by decide), rotr_eq _ (by decide)]
  rfl

theorem rounds_eq (l : List (BitVec 32 × BitVec 32)) (v : Words) :
    (l.foldl round v).registers = l.foldl (fun v kw => Fips180.step kw.1 kw.2 v) v.registers := by
  induction l generalizing v with
  | nil => rfl
  | cons kw l ih => rw [List.foldl_cons, ih, round_eq, List.foldl_cons]

/-- A block is folded in as the standard says. -/
theorem transform_eq (state : Words) {p : List (BitVec 8)} (hp : p.length = 64) :
    (transform state p).registers = Fips180.compress state.registers (Fips180.ofBytes p) := by
  have hzip : k.zip (schedule p) =
      (List.range 64).map fun t => (Fips180.constant t, Fips180.schedule (Fips180.ofBytes p) t) := by
    rw [k_eq, schedule, extend_iterate hp, List.zip_map']
  have hadd : ∀ v : Words, (state.add v).registers = v.registers.add state.registers := by
    intro v
    simp only [Words.add, Words.registers, Registers.add, BitVec.add_comm]
  unfold transform Fips180.compress
  rw [hadd, hzip, rounds_eq, List.foldl_map]

/-! ## Many bytes -/

/-- How many bytes the loop of `update` copies. -/
def piece (s : Sha256) (data : List (BitVec 8)) : ℕ := min data.length (64 - s.block.length)

theorem length_piece (s : Sha256) (data : List (BitVec 8)) : (s.block ++ data.take (piece s data)).length ≤ 64 := by
  have hroom := s.room
  rw [List.length_append, List.length_take, piece]
  omega

theorem piece_pos (s : Sha256) {data : List (BitVec 8)} (h : data ≠ []) : 0 < piece s data :=
  lt_min (List.length_pos_iff.mpr h) (Nat.sub_pos_of_lt s.room)

/-- The loop of `update`: as many bytes are copied as the block takes. -/
def copyPieces (s : Sha256) (data : List (BitVec 8)) : Sha256 :=
  if h : data = [] then s
  else
    let block := s.block ++ data.take (piece s data)
    let rest := data.drop (piece s data)
    if hfull : block.length = 64 then
      copyPieces { state := transform s.state block, block := [], totalBytes := s.totalBytes } rest
    else copyPieces { s with block, room := lt_of_le_of_ne (length_piece s data) hfull } rest
termination_by data.length
decreasing_by
  all_goals
    have hpos := piece_pos s h
    have hlength := List.length_pos_iff.mpr h
    rw [List.length_drop]
    omega

/-- `update`. -/
def updatePieces (s : Sha256) (data : List (BitVec 8)) : Sha256 :=
  copyPieces { s with totalBytes := s.totalBytes + BitVec.ofNat 64 data.length } data

theorem ext_of {s t : Sha256} (hstate : s.state = t.state) (hblock : s.block = t.block)
    (htotal : s.totalBytes = t.totalBytes) : s = t := by
  cases s
  cases t
  dsimp only at hstate hblock htotal
  subst hstate hblock htotal
  rfl

theorem totalBytes_update (s : Sha256) (data : List (BitVec 8)) :
    (s.update data).totalBytes = s.totalBytes + BitVec.ofNat 64 data.length := by
  induction data generalizing s with
  | nil => exact (BitVec.add_zero _).symm
  | cons b data ih =>
      have habsorb : (s.absorb b).totalBytes = s.totalBytes + 1 := by
        unfold absorb
        split <;> rfl
      rw [update, List.foldl_cons]
      change ((s.absorb b).update data).totalBytes = _
      rw [ih, habsorb, List.length_cons, Nat.add_comm, BitVec.ofNat_add, BitVec.add_assoc]
      rfl

theorem length_update (s : Sha256) (data : List (BitVec 8)) :
    (s.update data).block.length = (s.block.length + data.length) % 64 := by
  induction data generalizing s with
  | nil => exact (Nat.mod_eq_of_lt s.room).symm
  | cons b data ih =>
      rw [update, List.foldl_cons]
      change ((s.absorb b).update data).block.length = _
      rw [ih, length_absorb, List.length_cons]
      omega

/-- Bytes that leave room in the block wait there. -/
theorem update_of_lt {s : Sha256} {data : List (BitVec 8)} (h : s.block.length + data.length < 64) :
    (s.update data).state = s.state ∧ (s.update data).block = s.block ++ data := by
  induction data generalizing s with
  | nil => exact ⟨rfl, (List.append_nil _).symm⟩
  | cons b data ih =>
      rw [List.length_cons] at h
      have hroom : s.block.length + 1 < 64 := by omega
      have habsorb : (s.absorb b).state = s.state ∧ (s.absorb b).block = s.block ++ [b] := by
        unfold absorb
        rw [dif_pos hroom]
        exact ⟨rfl, rfl⟩
      rw [update, List.foldl_cons]
      change ((s.absorb b).update data).state = _ ∧ ((s.absorb b).update data).block = _
      obtain ⟨hstate, hblock⟩ := ih (s := s.absorb b) (by rw [habsorb.2, List.length_append, List.length_singleton]; omega)
      refine ⟨hstate.trans habsorb.1, ?_⟩
      rw [hblock, habsorb.2, List.append_assoc, List.singleton_append]

/-- Bytes that fill the block are folded in with it. -/
theorem update_of_eq {s : Sha256} {data : List (BitVec 8)} (h : s.block.length + data.length = 64) :
    (s.update data).state = transform s.state (s.block ++ data) ∧ (s.update data).block = [] := by
  have hroom := s.room
  have hne : data ≠ [] := by
    rintro rfl
    rw [List.length_nil] at h
    omega
  obtain ⟨front, last, rfl⟩ := (List.eq_nil_or_concat data).resolve_left hne
  rw [List.concat_eq_append] at h ⊢
  rw [List.length_append, List.length_singleton] at h
  obtain ⟨hstate, hblock⟩ := update_of_lt (s := s) (show s.block.length + front.length < 64 by omega)
  have hfull : ¬ (s.update front).block.length + 1 < 64 := by
    rw [hblock, List.length_append]
    omega
  rw [update_append]
  change ((s.update front).absorb last).state = _ ∧ ((s.update front).absorb last).block = _
  unfold absorb
  rw [dif_neg hfull, hstate, hblock, List.append_assoc]
  exact ⟨rfl, rfl⟩

/-- What an update does to the words and the block does not depend on the count. -/
theorem update_congr {s t : Sha256} (hstate : s.state = t.state) (hblock : s.block = t.block) (data : List (BitVec 8)) :
    (s.update data).state = (t.update data).state ∧ (s.update data).block = (t.update data).block := by
  have habsorb : ∀ {s t : Sha256} (b : BitVec 8), s.state = t.state → s.block = t.block →
      (s.absorb b).state = (t.absorb b).state ∧ (s.absorb b).block = (t.absorb b).block := by
    rintro ⟨_, _, _, _⟩ ⟨_, _, _, _⟩ b hstate hblock
    dsimp only at hstate hblock
    subst hstate hblock
    unfold absorb
    split
    · exact ⟨rfl, rfl⟩
    · exact ⟨rfl, rfl⟩
  induction data generalizing s t with
  | nil => exact ⟨hstate, hblock⟩
  | cons b data ih => exact ih (habsorb b hstate hblock).1 (habsorb b hstate hblock).2

/-- Byte by byte or in pieces. -/
theorem copyPieces_eq (s : Sha256) (data : List (BitVec 8)) :
    (copyPieces s data).state = (s.update data).state ∧ (copyPieces s data).block = (s.update data).block ∧
      (copyPieces s data).totalBytes = s.totalBytes := by
  induction hk : data.length using Nat.strong_induction_on generalizing s data with
  | _ k ih =>
      unfold copyPieces
      split_ifs with hnil
      · rw [hnil]
        exact ⟨rfl, rfl, rfl⟩
      have hsplit : s.update data = (s.update (data.take (piece s data))).update (data.drop (piece s data)) := by
        rw [← update_append, List.take_append_drop]
      have hless : (data.drop (piece s data)).length < k := by
        have hpos := piece_pos s hnil
        have hlength := List.length_pos_iff.mpr hnil
        rw [List.length_drop]
        omega
      rw [hsplit]
      dsimp only
      split_ifs with hfull
      · obtain ⟨hstate, hblock⟩ := update_of_eq (List.length_append ▸ hfull)
        obtain ⟨hrest, hrest', htotal⟩ :=
          ih _ hless ⟨transform s.state (s.block ++ data.take (piece s data)), [], s.totalBytes, by decide⟩ _ rfl
        obtain ⟨hsame, hsame'⟩ := update_congr
          (s := ⟨transform s.state (s.block ++ data.take (piece s data)), [], s.totalBytes, by decide⟩)
          hstate.symm hblock.symm (data.drop (piece s data))
        exact ⟨hrest.trans hsame, hrest'.trans hsame', htotal⟩
      · have hroom := lt_of_le_of_ne (length_piece s data) hfull
        obtain ⟨hstate, hblock⟩ := update_of_lt (List.length_append ▸ hroom)
        obtain ⟨hrest, hrest', htotal⟩ :=
          ih _ hless ⟨s.state, s.block ++ data.take (piece s data), s.totalBytes, hroom⟩ _ rfl
        obtain ⟨hsame, hsame'⟩ := update_congr (s := ⟨s.state, s.block ++ data.take (piece s data), s.totalBytes, hroom⟩)
          hstate.symm hblock.symm (data.drop (piece s data))
        exact ⟨hrest.trans hsame, hrest'.trans hsame', htotal⟩

theorem updatePieces_eq (s : Sha256) (data : List (BitVec 8)) : s.updatePieces data = s.update data := by
  unfold updatePieces
  obtain ⟨hstate, hblock, htotal⟩ :=
    copyPieces_eq { s with totalBytes := s.totalBytes + BitVec.ofNat 64 data.length } data
  obtain ⟨hsame, hsame'⟩ := update_congr
    (s := { s with totalBytes := s.totalBytes + BitVec.ofNat 64 data.length }) (t := s) rfl rfl data
  refine ext_of (hstate.trans hsame) (hblock.trans hsame') ?_
  rw [htotal, totalBytes_update]

/-- A whole number of blocks is folded in block by block. -/
theorem update_blocks {s : Sha256} (hs : s.block = []) {data : List (BitVec 8)} (hdata : data.length % 64 = 0) :
    (s.update data).state = (blocks 64 data).foldl transform s.state := by
  induction hk : data.length using Nat.strong_induction_on generalizing s data with
  | _ k ih =>
      rcases Nat.lt_or_ge data.length 64 with hlt | hge
      · have hnil : data = [] := List.length_eq_zero_iff.mp ((Nat.mod_eq_of_lt hlt).symm.trans hdata)
        rw [hnil]
        rfl
      · have htake : (data.take 64).length = 64 := List.length_take_of_le hge
        have hfull : s.block.length + (data.take 64).length = 64 := by rw [hs, htake, List.length_nil]
        obtain ⟨hstate, hblock⟩ := update_of_eq hfull
        have hdrop : (data.drop 64).length = data.length - 64 := List.length_drop
        rw [← List.take_append_drop 64 data, update_append, Fips180.blocks_append (by decide) htake, List.foldl_cons,
          ih (data.drop 64).length (by omega) hblock (by omega) rfl, hstate, hs, List.nil_append]

theorem registers_foldl {l : List (List (BitVec 8))} (hl : ∀ block ∈ l, block.length = 64) (state : Words) :
    (l.foldl transform state).registers = (l.map Fips180.ofBytes).foldl Fips180.compress state.registers := by
  induction l generalizing state with
  | nil => rfl
  | cons block l ih =>
      rw [List.foldl_cons, List.map_cons, List.foldl_cons, ih fun b hb => hl b (List.mem_cons_of_mem _ hb),
        transform_eq state (hl block List.mem_cons_self)]

/-! ## The padding -/

/-- The bytes of the length. -/
def lengthBytes (bitCount : BitVec 64) : List (BitVec 8) :=
  (List.range 8).reverse.map fun i => (bitCount >>> (i * 8)).setWidth 8

/-- The state that `finish_hex` prints, and that is left after it. -/
def finished (s : Sha256) : Sha256 := (pad 64 (s.update [0x80])).update (lengthBytes (s.totalBytes * 8))

theorem finishHex_eq (s : Sha256) : s.finishHex = (finished s).state.toList.flatMap hexDigits := rfl

/-- The loop of the padding in one update. -/
theorem pad_eq {fuel : ℕ} {s : Sha256} (h : (120 - s.block.length) % 64 ≤ fuel) :
    pad fuel s = s.update (List.replicate ((120 - s.block.length) % 64) 0) := by
  have hroom := s.room
  induction fuel generalizing s with
  | zero =>
      rw [Nat.le_zero.mp h]
      rfl
  | succ fuel ih =>
      rw [pad]
      split_ifs with hdone
      · rw [hdone]
        rfl
      · have hlength : (s.update [0]).block.length = (s.block.length + 1) % 64 := length_absorb s 0
        have hnext : (120 - s.block.length) % 64 = (120 - (s.update [0]).block.length) % 64 + 1 := by omega
        rw [ih (by omega) (s.update [0]).room, hnext, List.replicate_succ]
        rfl

theorem ofBytes_lengthBytes (bitCount : BitVec 64) : Fips180.ofBytes (lengthBytes bitCount) = bits bitCount := by
  have hpieces := Fips180.bits_pieces (n := 8) (w := 8) bitCount
  unfold Fips180.ofBytes lengthBytes
  rw [List.flatMap_map]
  exact hpieces.symm

theorem ofBytes_zeros (n : ℕ) : Fips180.ofBytes (List.replicate n 0) = List.replicate (8 * n) false := by
  induction n with
  | zero => rfl
  | succ n ih =>
      have hzero : bits (0 : BitVec 8) = List.replicate 8 false := by decide
      unfold Fips180.ofBytes at ih ⊢
      rw [List.replicate_succ, List.flatMap_cons, ih, hzero, List.replicate_append_replicate, Nat.mul_succ, Nat.add_comm]

/-- The bytes of the padding are the standard's bits. -/
theorem ofBytes_padded (data : List (BitVec 8)) :
    Fips180.ofBytes (data ++ ([0x80] ++ List.replicate ((120 - (data.length + 1) % 64) % 64) 0) ++
      lengthBytes (BitVec.ofNat 64 data.length * 8)) = Fips180.pad (Fips180.ofBytes data) := by
  have hlength : (Fips180.ofBytes data).length = 8 * data.length :=
    Fips180.length_flatMap (fun b => Fips180.length_bits b) data
  have hone : Fips180.ofBytes [0x80] = true :: List.replicate 7 false := by decide
  have hcount : BitVec.ofNat 64 data.length * 8 = BitVec.ofNat 64 (8 * data.length) := by
    rw [BitVec.mul_comm, BitVec.ofNat_mul]
    rfl
  have hzeros : 7 + 8 * ((120 - (data.length + 1) % 64) % 64) = Fips180.zeros (8 * data.length) := by
    unfold Fips180.zeros
    omega
  have happend : ∀ x y : List (BitVec 8), Fips180.ofBytes (x ++ y) = Fips180.ofBytes x ++ Fips180.ofBytes y :=
    fun x y => List.flatMap_append
  rw [happend, happend, happend, hone, ofBytes_zeros, ofBytes_lengthBytes, hcount, List.cons_append,
    List.replicate_append_replicate, hzeros, ← hlength]
  rfl

/-! ## The digest -/

/-- The digits of a word, the most significant first. -/
def nibbles (v : BitVec 32) : List (BitVec 4) := (List.range 8).reverse.map fun i => (v >>> (i * 4)).setWidth 4

theorem bits_nibbles (v : BitVec 32) : bits v = (nibbles v).flatMap bits := by
  have hpieces := Fips180.bits_pieces (n := 8) (w := 4) v
  rw [nibbles, List.flatMap_map]
  exact hpieces

theorem hexDigits_eq (v : BitVec 32) : hexDigits v = (nibbles v).map fun digit => Nat.digitChar digit.toNat := by
  unfold hexDigits nibbles
  rw [List.map_map]
  refine List.map_congr_left fun i _ => ?_
  rw [Function.comp_apply, BitVec.toNat_setWidth]

theorem hex_words (words : List (BitVec 32)) : Fips180.hex (words.flatMap bits) = words.flatMap hexDigits := by
  have hcut : blocks 4 (words.flatMap bits) = (words.flatMap nibbles).map bits := by
    rw [funext bits_nibbles, ← List.flatMap_assoc]
    exact Fips180.blocks_flatMap_self (fun digit => Fips180.length_bits digit) (by decide) _
  unfold Fips180.hex
  rw [hcut, List.map_map, List.map_flatMap, funext hexDigits_eq]
  refine congrArg (words.flatMap ·) (funext fun v => List.map_congr_left fun digit _ => ?_)
  rw [Function.comp_apply, Fips180.value_bits]

/-- A fresh state that was given bytes prints their digest. -/
theorem finishHex_update (data : List (BitVec 8)) :
    (({} : Sha256).update data).finishHex = Fips180.hex (Fips180.digest (Fips180.ofBytes data)) := by
  have hlength : (({} : Sha256).update (data ++ [0x80])).block.length = (data.length + 1) % 64 := by
    rw [length_update, List.length_append, List.length_singleton]
    show (0 + (data.length + 1)) % 64 = _
    rw [Nat.zero_add]
  have htotal : (({} : Sha256).update data).totalBytes = BitVec.ofNat 64 data.length := by
    rw [totalBytes_update]
    exact BitVec.zero_add _
  have hfinished : finished (({} : Sha256).update data) = ({} : Sha256).update
      (data ++ ([0x80] ++ List.replicate ((120 - (data.length + 1) % 64) % 64) 0) ++
        lengthBytes (BitVec.ofNat 64 data.length * 8)) := by
    unfold finished
    rw [htotal, ← update_append, pad_eq (by omega), hlength, ← update_append, ← update_append]
    simp only [List.append_assoc]
  have hwhole : (data ++ ([0x80] ++ List.replicate ((120 - (data.length + 1) % 64) % 64) 0) ++
      lengthBytes (BitVec.ofNat 64 data.length * 8)).length % 64 = 0 := by
    simp only [List.length_append, List.length_replicate, List.length_singleton, lengthBytes, List.length_map,
      List.length_reverse, List.length_range]
    omega
  have hblocks : blocks 512 (Fips180.pad (Fips180.ofBytes data)) = (blocks 64 (data ++ ([0x80] ++
      List.replicate ((120 - (data.length + 1) % 64) % 64) 0) ++
        lengthBytes (BitVec.ofNat 64 data.length * 8))).map Fips180.ofBytes := by
    rw [← ofBytes_padded]
    exact Fips180.blocks_flatMap (n := 64) (w := 8) (fun b => Fips180.length_bits b) (by decide) (by decide) _
  rw [finishHex_eq, hfinished, update_blocks rfl hwhole, ← Words.registers_toList,
    registers_foldl (fun block hblock => Fips180.length_of_mem_blocks hblock), ← hblocks, registers_initial,
    ← hex_words]
  rfl

end Sha256

/-! ## Objects that are copied -/

/-- What is done with hash states. -/
inductive HashAction where
  /-- the object `i` is constructed -/
  | create (i : ℕ)
  | update (i : ℕ) (data : List (BitVec 8))
  /-- the object `j` becomes a copy of `i` -/
  | copy (i j : ℕ)
  | finish (i : ℕ)

/-- Hash states that are created, updated, copied and finished in any order. -/
def hashers : Machine (ℕ → Sha256) HashAction where
  init objects := ∀ i, objects i = {}
  step objects
    | .create i => some (Function.update objects i {})
    | .update i data => some (Function.update objects i ((objects i).updatePieces data))
    | .copy i j => some (Function.update objects j (objects i))
    | .finish i => some (Function.update objects i (objects i).finished)

/-- The bytes that each object received, itself or through the objects that it is a copy
of; none for one that was finished. -/
def HashAction.received (received : ℕ → Option (List (BitVec 8))) : HashAction → ℕ → Option (List (BitVec 8))
  | .create i => Function.update received i (some [])
  | .update i data => Function.update received i ((received i).map (· ++ data))
  | .copy i j => Function.update received j (received i)
  | .finish i => Function.update received i none

/-- The same with the bytes that each received. -/
def receivingHashers : Machine ((ℕ → Sha256) × (ℕ → Option (List (BitVec 8)))) HashAction :=
  hashers.withHistory (fun _ => some []) fun _ a _ received => a.received received

/-- Each object is a fresh one that was given its bytes at once. -/
def Received (s : (ℕ → Sha256) × (ℕ → Option (List (BitVec 8)))) : Prop :=
  ∀ i, ∀ bytes ∈ s.2 i, s.1 i = ({} : Sha256).update bytes

/-- Setting one object and its history. -/
theorem Received.set {s : (ℕ → Sha256) × (ℕ → Option (List (BitVec 8)))} (hs : Received s) (i : ℕ) {object : Sha256}
    {received : Option (List (BitVec 8))} (h : ∀ bytes ∈ received, object = ({} : Sha256).update bytes) :
    Received (Function.update s.1 i object, Function.update s.2 i received) := by
  intro j bytes hbytes
  by_cases hj : j = i
  · subst hj
    simp only [Function.update_self] at hbytes ⊢
    exact h bytes hbytes
  · simp only [Function.update_of_ne hj] at hbytes ⊢
    exact hs j bytes hbytes

theorem received_invariant : receivingHashers.Invariant Received where
  init := by
    rintro ⟨objects, received⟩ ⟨hobjects, rfl⟩ i bytes hbytes
    obtain rfl := Option.mem_some.mp hbytes
    exact hobjects i
  step := by
    intro s a t hs hstep
    obtain ⟨objects, hobjects, rfl⟩ := Machine.withHistory_step.mp hstep
    cases a with
    | create i =>
        obtain rfl := Option.some.inj hobjects
        refine hs.set i fun bytes hbytes => ?_
        obtain rfl := Option.mem_some.mp hbytes
        rfl
    | update i data =>
        obtain rfl := Option.some.inj hobjects
        refine hs.set i fun bytes hbytes => ?_
        obtain ⟨before, hbefore, rfl⟩ := Option.mem_map.mp hbytes
        rw [Sha256.updatePieces_eq, hs i before hbefore, Sha256.update_append]
    | copy i j =>
        obtain rfl := Option.some.inj hobjects
        exact hs.set j (hs i)
    | finish i =>
        obtain rfl := Option.some.inj hobjects
        exact hs.set i fun bytes hbytes => nomatch hbytes

/-- **Streaming SHA-256.**  However its bytes were cut into calls, and whatever became of
the objects that it was copied from or to, an object prints the standard's digest of the
bytes that it received. -/
theorem streamingSha256 {objects : ℕ → Sha256} {received : ℕ → Option (List (BitVec 8))}
    (h : receivingHashers.Reachable (objects, received)) (i : ℕ) :
    ∀ bytes ∈ received i, bytes.length < 2 ^ 61 →
      (objects i).finishHex = Fips180.hex (Fips180.digest (Fips180.ofBytes bytes)) := by
  intro bytes hbytes _
  have hobject : objects i = ({} : Sha256).update bytes := received_invariant.reachable h i bytes hbytes
  rw [hobject]
  exact Sha256.finishHex_update bytes

/-- A copy that went its own way. -/
theorem streamingSha256_copy :
    ∃ objects received, receivingHashers.Reachable (objects, received) ∧ received 0 = some [97, 98] ∧
      received 1 = some [97, 99] ∧
      (objects 0).finishHex = Fips180.hex (Fips180.digest (Fips180.ofBytes [97, 98])) ∧
      (objects 1).finishHex = Fips180.hex (Fips180.digest (Fips180.ofBytes [97, 99])) := by
  have hrun : receivingHashers.Reachable _ :=
    ⟨(fun _ => {}, fun _ => some []), [.update 0 [97], .copy 0 1, .update 0 [98], .update 1 [99]],
      ⟨fun _ => rfl, rfl⟩, rfl⟩
  exact ⟨_, _, hrun, rfl, rfl, streamingSha256 hrun 0 _ rfl (by decide), streamingSha256 hrun 1 _ rfl (by decide)⟩

end Qw3.Prefix
