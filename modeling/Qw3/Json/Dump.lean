import Qw3.Json.Equal

/-!
# The text of a JSON value

`basic_json::dump` without indentation (`json.hpp`, `serializer`).

* `FloatText` — `detail::to_chars` of the magnitude of a finite double: it writes
  digits, with a point or an exponent.
* `Json.dump` — the text; strings are escaped, integers decimal.
* `Json.dump_eq_of_alike` — values whose numbers are written alike have one text.
* `Json.alike_of_dump_eq` — of two values that `operator==` takes for equal, only
  those written alike have one text.
-/

namespace Qw3

/-- A character of a number. -/
def numeric (c : Char) : Bool := c.isDigit || c == '-' || c == '+' || c == '.' || c == 'e'

/-- `detail::to_chars` without the sign: the shortest digits that read back as
the double, which always look like a floating-point number. -/
structure FloatText where
  toChars : Double → List Char
  numeric_of_mem : ∀ x c, c ∈ toChars x → numeric c = true
  pointed : ∀ x, '.' ∈ toChars x ∨ 'e' ∈ toChars x
  unsigned : ∀ x rest, toChars x ≠ '-' :: rest

/-- `dump_integer`. -/
def dumpInteger (n : ℤ) : List Char :=
  if n < 0 then '-' :: Nat.toDigits 10 n.natAbs else Nat.toDigits 10 n.natAbs

/-- The four digits of `"\\u%04x"` for a control character. -/
def hexDigits (n : ℕ) : List Char :=
  ['0', '0', Nat.digitChar (n / 16), Nat.digitChar (n % 16)]

/-- `dump_escaped`, for one character. -/
def escape (c : Char) : List Char :=
  if c = '\x08' then ['\\', 'b']
  else if c = '\t' then ['\\', 't']
  else if c = '\n' then ['\\', 'n']
  else if c = '\x0C' then ['\\', 'f']
  else if c = '\r' then ['\\', 'r']
  else if c = '"' then ['\\', '"']
  else if c = '\\' then ['\\', '\\']
  else if c.toNat ≤ 0x1F then '\\' :: 'u' :: hexDigits c.toNat
  else [c]

/-- `dump` of a string. -/
def dumpString (s : String) : List Char :=
  '"' :: (s.toList.flatMap escape ++ ['"'])

/-- `dump_float`. -/
def dumpFloat (F : FloatText) (x : Double) : List Char :=
  if x.isFinite then (if x.bits.msb then '-' :: F.toChars x else F.toChars x)
  else ['n', 'u', 'l', 'l']

namespace Number

/-- The text of a number. -/
def dump (F : FloatText) : Number → List Char
  | integer n => dumpInteger n.toInt
  | unsigned n => dumpInteger n.toNat
  | float x => dumpFloat F x

end Number

namespace Json

section Dump

variable (F : FloatText)

mutual

/-- `dump`. -/
def dump : Json → List Char
  | null => ['n', 'u', 'l', 'l']
  | boolean true => ['t', 'r', 'u', 'e']
  | boolean false => ['f', 'a', 'l', 's', 'e']
  | integer n => (Number.integer n).dump F
  | unsigned n => (Number.unsigned n).dump F
  | float x => (Number.float x).dump F
  | string s => dumpString s
  | array [] => ['[', ']']
  | array (x :: xs) => '[' :: (dump x ++ dumpItems xs)
  | object [] => ['{', '}']
  | object ((k, x) :: ms) => '{' :: (dumpString k ++ ':' :: (dump x ++ dumpMembers ms))

/-- The other items of an array, and the bracket that ends it. -/
def dumpItems : List Json → List Char
  | [] => [']']
  | x :: xs => ',' :: (dump x ++ dumpItems xs)

/-- The other members of an object, and the brace that ends it. -/
def dumpMembers : List (String × Json) → List Char
  | [] => ['}']
  | (k, x) :: ms => ',' :: (dumpString k ++ ':' :: (dump x ++ dumpMembers ms))

end

end Dump

end Json

/-! ## Numbers -/

/-- No number goes on into the text. -/
def Ends (text : List Char) : Prop := ∀ c rest, text = c :: rest → numeric c = false

theorem ends_cons {c : Char} {rest : List Char} (h : numeric c = false) : Ends (c :: rest) := by
  intro d rest' heq
  cases heq
  exact h

/-- Texts of numeric characters, each followed by text where no number goes on,
are the longest such. -/
theorem numeric_append_cancel {u v s t : List Char} (hu : ∀ c ∈ u, numeric c = true)
    (hv : ∀ c ∈ v, numeric c = true) (hs : Ends s) (ht : Ends t) (h : u ++ s = v ++ t) :
    u = v ∧ s = t := by
  have stop : ∀ r : List Char, Ends r → r.takeWhile numeric = [] := by
    intro r hr
    cases r with
    | nil => rfl
    | cons c rest => simp [hr c rest rfl]
  have huv : u = v := by
    have := congrArg (List.takeWhile numeric) h
    rwa [List.takeWhile_append_of_pos hu, List.takeWhile_append_of_pos hv, stop s hs, stop t ht,
      List.append_nil, List.append_nil] at this
  subst huv
  exact ⟨rfl, List.append_cancel_left h⟩

theorem numeric_of_isDigit {c : Char} (h : c.isDigit = true) : numeric c = true := by
  simp [numeric, h]

theorem dumpInteger_numeric {n : ℤ} {c : Char} (h : c ∈ dumpInteger n) : numeric c = true := by
  rw [dumpInteger] at h
  split at h
  next =>
    rcases List.mem_cons.mp h with rfl | hmem
    · rfl
    · exact numeric_of_isDigit (Nat.isDigit_of_mem_toDigits (by norm_num) le_rfl hmem)
  next => exact numeric_of_isDigit (Nat.isDigit_of_mem_toDigits (by norm_num) le_rfl h)

variable {F : FloatText}

theorem dumpFloat_numeric {x : Double} (hx : x.isFinite = true) {c : Char}
    (h : c ∈ dumpFloat F x) : numeric c = true := by
  rw [dumpFloat, if_pos hx] at h
  split at h
  next =>
    rcases List.mem_cons.mp h with rfl | hmem
    · rfl
    · exact F.numeric_of_mem x c hmem
  next => exact F.numeric_of_mem x c h

/-- The text of an integer has no point and no exponent. -/
theorem dumpInteger_digits {n : ℤ} {c : Char} (h : c ∈ dumpInteger n) :
    c = '-' ∨ c.isDigit = true := by
  rw [dumpInteger] at h
  split at h
  next =>
    rcases List.mem_cons.mp h with rfl | hmem
    · exact .inl rfl
    · exact .inr (Nat.isDigit_of_mem_toDigits (by norm_num) le_rfl hmem)
  next => exact .inr (Nat.isDigit_of_mem_toDigits (by norm_num) le_rfl h)

theorem dumpFloat_pointed {x : Double} (hx : x.isFinite = true) :
    '.' ∈ dumpFloat F x ∨ 'e' ∈ dumpFloat F x := by
  rw [dumpFloat, if_pos hx]
  split
  next => exact (F.pointed x).imp (List.mem_cons_of_mem _) (List.mem_cons_of_mem _)
  next => exact F.pointed x

theorem dumpFloat_ne_dumpInteger {x : Double} (hx : x.isFinite = true) (n : ℤ) :
    dumpFloat F x ≠ dumpInteger n := by
  intro h
  rcases dumpFloat_pointed (F := F) hx with hmem | hmem
  all_goals
    rw [h] at hmem
    exact absurd (dumpInteger_digits hmem) (by decide)

/-- An integer's text tells whether it is negative. -/
theorem neg_iff_of_dumpInteger_eq {m n : ℤ} (h : dumpInteger m = dumpInteger n) :
    m < 0 ↔ n < 0 := by
  have sign : ∀ k : ℕ, ∀ rest, Nat.toDigits 10 k ≠ '-' :: rest := by
    intro k rest hk
    have hmem : '-' ∈ Nat.toDigits 10 k := by simp [hk]
    exact absurd (Nat.isDigit_of_mem_toDigits (by norm_num) le_rfl hmem) (by decide)
  rw [dumpInteger, dumpInteger] at h
  split at h <;> split at h
  next hm hn => exact ⟨fun _ => hn, fun _ => hm⟩
  next => exact absurd h.symm (sign _ _)
  next => exact absurd h (sign _ _)
  next hm hn => exact ⟨fun h' => absurd h' hm, fun h' => absurd h' hn⟩

/-- A finite double's text tells its sign. -/
theorem msb_eq_of_dumpFloat_eq {x y : Double} (hx : x.isFinite = true)
    (hy : y.isFinite = true) (h : dumpFloat F x = dumpFloat F y) : x.bits.msb = y.bits.msb := by
  rw [dumpFloat, dumpFloat, if_pos hx, if_pos hy] at h
  split at h <;> split at h
  next hm hn => rw [hm, hn]
  next => exact absurd h.symm (F.unsigned _ _)
  next => exact absurd h (F.unsigned _ _)
  next hm hn => simp_all

namespace Number

/-- An integer that is not negative is the same read as unsigned. -/
theorem toNat_eq_toInt {n : BitVec 64} (h : 0 ≤ n.toInt) : (n.toNat : ℤ) = n.toInt := by
  rw [BitVec.toInt_eq_toNat_cond] at h ⊢
  split at h <;> omega

theorem isFinite_of_equalInteger {x : Double} {n : ℤ} (h : x.equalInteger n = true) :
    x.isFinite = true := by
  rw [Double.equalInteger, Bool.and_eq_true] at h
  exact h.1

/-- A finite double, as a number. -/
def isFinite : Number → Bool
  | float x => x.isFinite
  | _ => true

theorem dump_numeric {x : Number} (hx : x.isFinite = true) {c : Char}
    (hc : c ∈ x.dump F) : numeric c = true := by
  cases x with
  | integer n => exact dumpInteger_numeric hc
  | unsigned n => exact dumpInteger_numeric hc
  | float d => exact dumpFloat_numeric hx hc

/-- Equal numbers are finite, or are one infinity. -/
theorem isFinite_or_eq {x y : Number} (h : x.equal y = true) :
    (x.isFinite = true ∧ y.isFinite = true) ∨ x = y := by
  cases x with
  | integer a =>
    cases y with
    | float e => exact .inl ⟨rfl, isFinite_of_equalInteger h⟩
    | _ => exact .inl ⟨rfl, rfl⟩
  | unsigned a =>
    cases y with
    | float e => exact .inl ⟨rfl, isFinite_of_equalInteger h⟩
    | _ => exact .inl ⟨rfl, rfl⟩
  | float d =>
    cases y with
    | float e =>
      simp only [equal, Double.equal] at h
      split at h
      next hfin => exact .inl (by simpa [isFinite] using hfin)
      next =>
        rw [Bool.and_eq_true, beq_iff_eq] at h
        exact .inr (congrArg float h.1)
    | _ => exact .inl ⟨isFinite_of_equalInteger h, rfl⟩

/-- Of two numbers that are equal, the text tells whether they are written alike. -/
theorem alike_of_dump_eq {x y : Number} (h : x.equal y = true)
    (hd : x.dump F = y.dump F) : x.alike y = true := by
  cases x with
  | integer a =>
    cases y with
    | integer b => exact h
    | unsigned b =>
      -- The bits are the same, and the text shows that the integer is not negative.
      have hneg := neg_iff_of_dumpInteger_eq hd
      obtain rfl : a = b := by simpa [equal] using h
      exact beq_iff_eq.mpr (toNat_eq_toInt (by omega)).symm
    | float e => exact absurd hd.symm (dumpFloat_ne_dumpInteger (isFinite_of_equalInteger h) _)
  | unsigned a =>
    cases y with
    | integer b =>
      have hneg := neg_iff_of_dumpInteger_eq hd
      obtain rfl : a = b := by simpa [equal] using h
      exact beq_iff_eq.mpr (toNat_eq_toInt (by omega))
    | unsigned b => exact h
    | float e => exact absurd hd.symm (dumpFloat_ne_dumpInteger (isFinite_of_equalInteger h) _)
  | float d =>
    cases y with
    | integer b => exact absurd hd (dumpFloat_ne_dumpInteger (isFinite_of_equalInteger h) _)
    | unsigned b => exact absurd hd (dumpFloat_ne_dumpInteger (isFinite_of_equalInteger h) _)
    | float e =>
      simp only [equal, Double.equal] at h
      split at h
      next hfin =>
        rw [Bool.and_eq_true] at hfin
        have hmsb := msb_eq_of_dumpFloat_eq hfin.1 hfin.2 hd
        exact beq_iff_eq.mpr (Double.eq_of_value_eq hmsb (beq_iff_eq.mp h))
      next =>
        rw [Bool.and_eq_true] at h
        exact h.1

theorem alike_refl (x : Number) : x.alike x = true := by
  cases x <;> simp [alike]

/-- Numbers written alike have one text. -/
theorem dump_eq_of_alike (F : FloatText) {x y : Number} (h : x.alike y = true) :
    x.dump F = y.dump F := by
  cases x <;> cases y <;> simp_all [alike, dump]

theorem dump_cancel {x y : Number} {s t : List Char} (h : x.equal y = true)
    (hs : Ends s) (ht : Ends t) (hd : x.dump F ++ s = y.dump F ++ t) :
    x.alike y = true ∧ s = t := by
  rcases isFinite_or_eq h with ⟨hx, hy⟩ | rfl
  · obtain ⟨heq, hst⟩ := numeric_append_cancel (fun _ => dump_numeric hx)
      (fun _ => dump_numeric hy) hs ht hd
    exact ⟨alike_of_dump_eq h heq, hst⟩
  · exact ⟨alike_refl x, List.append_cancel_left hd⟩

end Number

/-! ## Values -/

namespace Json

variable {number : Number → Number → Bool}

theorem dump_number (F : FloatText) {j : Json} {x : Number} (h : j.number? = some x) :
    j.dump F = x.dump F := by
  cases j <;> simp only [number?, reduceCtorEq, Option.some.injEq] at h
  all_goals
    subst h
    rw [dump]

theorem agree_number {a b : Json} {x : Number} (ha : a.number? = some x) :
    agree number a b = true ↔ ∃ y, b.number? = some y ∧ number x y = true := by
  cases a <;> simp only [number?, reduceCtorEq, Option.some.injEq] at ha
  all_goals
    subst ha
    rw [agree]
    cases b.number? <;> simp

theorem ends_dumpItems (F : FloatText) (xs : List Json) (s : List Char) :
    Ends (dumpItems F xs ++ s) := by
  cases xs with
  | nil =>
    rw [dumpItems]
    exact ends_cons rfl
  | cons x xs =>
    rw [dumpItems]
    exact ends_cons rfl

theorem ends_dumpMembers (F : FloatText) (ms : List (String × Json)) (s : List Char) :
    Ends (dumpMembers F ms ++ s) := by
  cases ms with
  | nil =>
    rw [dumpMembers]
    exact ends_cons rfl
  | cons m ms =>
    rw [dumpMembers]
    exact ends_cons rfl

theorem number_cancel {a b : Json} {x : Number} (ha : a.number? = some x)
    {s t : List Char} (h : a.equal b = true) (hs : Ends s) (ht : Ends t)
    (hd : a.dump F ++ s = b.dump F ++ t) : a.alike b = true ∧ s = t := by
  obtain ⟨y, hb, hxy⟩ := (agree_number ha).mp h
  rw [dump_number F ha, dump_number F hb] at hd
  obtain ⟨halike, hst⟩ := Number.dump_cancel hxy hs ht hd
  exact ⟨(agree_number ha).mpr ⟨y, hb, halike⟩, hst⟩

theorem dump_eq_of_number (F : FloatText) {a b : Json} {x : Number} (ha : a.number? = some x)
    (h : a.alike b = true) : a.dump F = b.dump F := by
  obtain ⟨y, hb, hxy⟩ := (agree_number ha).mp h
  rw [dump_number F ha, dump_number F hb, Number.dump_eq_of_alike F hxy]

mutual

/-- Of two values that `operator==` takes for equal, the text tells whether they
are written alike. -/
theorem dump_cancel : ∀ (a b : Json) {s t : List Char}, a.equal b = true →
    Ends s → Ends t → a.dump F ++ s = b.dump F ++ t → a.alike b = true ∧ s = t
  | null, b, s, t, h, _, _, hd => by
    cases b <;> simp only [equal, agree, Bool.false_eq_true] at h
    simpa [dump, alike, agree] using hd
  | boolean x, b, s, t, h, _, _, hd => by
    cases b <;> simp only [equal, agree, Bool.false_eq_true] at h
    obtain rfl := beq_iff_eq.mp h
    exact ⟨by simp [alike, agree], List.append_cancel_left hd⟩
  | integer n, b, s, t, h, hs, ht, hd => number_cancel rfl h hs ht hd
  | unsigned n, b, s, t, h, hs, ht, hd => number_cancel rfl h hs ht hd
  | float x, b, s, t, h, hs, ht, hd => number_cancel rfl h hs ht hd
  | string v, b, s, t, h, _, _, hd => by
    cases b <;> simp only [equal, agree, Bool.false_eq_true] at h
    obtain rfl := beq_iff_eq.mp h
    exact ⟨by simp [alike, agree], List.append_cancel_left hd⟩
  | array xs, b, s, t, h, _, _, hd => by
    cases b with
    | array ys =>
      have hitems : dumpItems F xs ++ s = dumpItems F ys ++ t := by
        cases xs with
        | nil =>
          cases ys with
          | nil => simpa [dump] using hd
          | cons y ys => simp [equal, agree, agreeItems] at h
        | cons x xs =>
          cases ys with
          | nil => simp [equal, agree, agreeItems] at h
          | cons y ys => simpa [dump, dumpItems] using hd
      exact dumpItems_cancel xs ys (by simpa only [equal, agree] using h) hitems
    | _ => simp [equal, agree] at h
  | object ms, b, s, t, h, _, _, hd => by
    cases b with
    | object ns =>
      have hmembers : dumpMembers F ms ++ s = dumpMembers F ns ++ t := by
        cases ms with
        | nil =>
          cases ns with
          | nil => simpa [dump] using hd
          | cons n ns => simp [equal, agree, agreeMembers] at h
        | cons m ms =>
          cases ns with
          | nil => simp [equal, agree, agreeMembers] at h
          | cons n ns => simpa [dump, dumpMembers] using hd
      exact dumpMembers_cancel ms ns (by simpa only [equal, agree] using h) hmembers
    | _ => simp [equal, agree] at h

theorem dumpItems_cancel : ∀ (xs ys : List Json) {s t : List Char},
    agreeItems Number.equal xs ys = true → dumpItems F xs ++ s = dumpItems F ys ++ t →
    agreeItems Number.alike xs ys = true ∧ s = t
  | [], ys, s, t, h, hd => by
    cases ys with
    | nil => exact ⟨rfl, List.append_cancel_left hd⟩
    | cons y ys => simp [agreeItems] at h
  | x :: xs, ys, s, t, h, hd => by
    cases ys with
    | nil => simp [agreeItems] at h
    | cons y ys =>
      simp only [agreeItems, Bool.and_eq_true] at h
      simp only [dumpItems, List.cons_append, List.append_assoc, List.cons.injEq, true_and] at hd
      obtain ⟨hx, hrest⟩ := dump_cancel x y h.1 (ends_dumpItems F xs s) (ends_dumpItems F ys t) hd
      obtain ⟨hxs, hst⟩ := dumpItems_cancel xs ys h.2 hrest
      exact ⟨by simp only [agreeItems, Bool.and_eq_true]; exact ⟨hx, hxs⟩, hst⟩

theorem dumpMembers_cancel : ∀ (ms ns : List (String × Json)) {s t : List Char},
    agreeMembers Number.equal ms ns = true → dumpMembers F ms ++ s = dumpMembers F ns ++ t →
    agreeMembers Number.alike ms ns = true ∧ s = t
  | [], ns, s, t, h, hd => by
    cases ns with
    | nil => exact ⟨rfl, List.append_cancel_left hd⟩
    | cons n ns => simp [agreeMembers] at h
  | (k, x) :: ms, ns, s, t, h, hd => by
    cases ns with
    | nil => simp [agreeMembers] at h
    | cons n ns =>
      obtain ⟨l, y⟩ := n
      simp only [agreeMembers, Bool.and_eq_true, beq_iff_eq] at h
      obtain ⟨⟨rfl, hxy⟩, hms⟩ := h
      simp only [dumpMembers, List.cons_append, List.append_assoc, List.cons.injEq, true_and,
        List.append_cancel_left_eq] at hd
      obtain ⟨hx, hrest⟩ := dump_cancel x y hxy (ends_dumpMembers F ms s)
        (ends_dumpMembers F ns t) hd
      obtain ⟨hmem, hst⟩ := dumpMembers_cancel ms ns hms hrest
      refine ⟨?_, hst⟩
      simp only [agreeMembers, Bool.and_eq_true, beq_self_eq_true, true_and]
      exact ⟨hx, hmem⟩

end

mutual

/-- Values written alike have one text. -/
theorem dump_eq_of_alike (F : FloatText) : ∀ a b : Json, a.alike b = true → a.dump F = b.dump F
  | null, b, h => by
    cases b <;> simp only [alike, agree, Bool.false_eq_true] at h
    rfl
  | boolean x, b, h => by
    cases b <;> simp only [alike, agree, Bool.false_eq_true] at h
    rw [beq_iff_eq.mp h]
  | integer n, b, h => dump_eq_of_number F rfl h
  | unsigned n, b, h => dump_eq_of_number F rfl h
  | float x, b, h => dump_eq_of_number F rfl h
  | string v, b, h => by
    cases b <;> simp only [alike, agree, Bool.false_eq_true] at h
    rw [beq_iff_eq.mp h]
  | array xs, b, h => by
    cases b with
    | array ys =>
      have hitems := dumpItems_eq_of_alike F xs ys (by simpa only [alike, agree] using h)
      cases xs with
      | nil =>
        cases ys with
        | nil => rfl
        | cons y ys => simp [alike, agree, agreeItems] at h
      | cons x xs =>
        cases ys with
        | nil => simp [alike, agree, agreeItems] at h
        | cons y ys => simpa [dump, dumpItems] using hitems
    | _ => simp [alike, agree] at h
  | object ms, b, h => by
    cases b with
    | object ns =>
      have hmembers := dumpMembers_eq_of_alike F ms ns (by simpa only [alike, agree] using h)
      cases ms with
      | nil =>
        cases ns with
        | nil => rfl
        | cons n ns => simp [alike, agree, agreeMembers] at h
      | cons m ms =>
        cases ns with
        | nil => simp [alike, agree, agreeMembers] at h
        | cons n ns => simpa [dump, dumpMembers] using hmembers
    | _ => simp [alike, agree] at h

theorem dumpItems_eq_of_alike (F : FloatText) : ∀ xs ys : List Json,
    agreeItems Number.alike xs ys = true → dumpItems F xs = dumpItems F ys
  | [], ys, h => by
    cases ys with
    | nil => rfl
    | cons y ys => simp [agreeItems] at h
  | x :: xs, ys, h => by
    cases ys with
    | nil => simp [agreeItems] at h
    | cons y ys =>
      rw [agreeItems, Bool.and_eq_true] at h
      rw [dumpItems, dumpItems, dump_eq_of_alike F x y h.1, dumpItems_eq_of_alike F xs ys h.2]

theorem dumpMembers_eq_of_alike (F : FloatText) : ∀ ms ns : List (String × Json),
    agreeMembers Number.alike ms ns = true → dumpMembers F ms = dumpMembers F ns
  | [], ns, h => by
    cases ns with
    | nil => rfl
    | cons n ns => simp [agreeMembers] at h
  | (k, x) :: ms, ns, h => by
    cases ns with
    | nil => simp [agreeMembers] at h
    | cons n ns =>
      obtain ⟨l, y⟩ := n
      simp only [agreeMembers, Bool.and_eq_true, beq_iff_eq] at h
      obtain ⟨⟨rfl, hxy⟩, hms⟩ := h
      rw [dumpMembers, dumpMembers, dump_eq_of_alike F x y hxy, dumpMembers_eq_of_alike F ms ns hms]

end

end Json

end Qw3
