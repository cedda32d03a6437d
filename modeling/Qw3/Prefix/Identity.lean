import Qw3.Prefix.Sha256
import Mathlib.Data.Vector.Basic
import Mathlib.Order.Bounds.Basic

/-!
# What identifies a row

`multimodal_prefix_cache.hpp`: a token ID with the high bit set stands for a row
of a visual input, whose identity is looked up in a table.

* `multimodalTokenIdentity` — the lookup: the token's own slot first.
* `multimodalPrefixLcp` — how much of a common token prefix also agrees on the
  visual inputs.
* `RowKey`, `rowKey` — what identifies a row, as the two independent users of
  the table understand it: `rowKey` is `none` for a visual token the table does
  not know.
* `le_multimodalPrefixLcp` — rows of one identity are never cut off.
-/

namespace Qw3.Prefix

/-- `MultimodalTokenIdentity`. -/
structure MultimodalTokenIdentity where
  tokenId : BitVec 32 := 0
  sourceTokenId : BitVec 32 := 0
  position : Vector (BitVec 32) 3 := #v[0, 0, 0]
  cacheIdentity : BitVec 64 := 0
  deriving DecidableEq

/-- `token & 0x80000000u`. -/
def visual (token : BitVec 32) : Bool := token &&& 0x80000000#32 ≠ 0

/-- `multimodal_token_identity`. -/
def multimodalTokenIdentity (identities : List MultimodalTokenIdentity) (tokenId : BitVec 32) :
    Option MultimodalTokenIdentity :=
  if visual tokenId then
    let row := (tokenId &&& 0x7fffffff#32).toNat
    match if 0 < row then identities[row - 1]? else none with
    | some candidate =>
        if candidate.tokenId = tokenId then some candidate
        else identities.find? fun candidate => candidate.tokenId = tokenId
    | none => identities.find? fun candidate => candidate.tokenId = tokenId
  else none

/-- Whether the loop of `multimodal_prefix_lcp` goes past a token. -/
def multimodalPrefixAgrees (warmIdentities currentIdentities : List MultimodalTokenIdentity)
    (warmFingerprint currentFingerprint : BitVec 64) (token : BitVec 32) : Bool :=
  if visual token then
    match multimodalTokenIdentity warmIdentities token,
        multimodalTokenIdentity currentIdentities token with
    | some warm, some current =>
        if warm.sourceTokenId ≠ current.sourceTokenId ∨ warm.position ≠ current.position then false
        else if warm.cacheIdentity = 0 ∨ current.cacheIdentity = 0 then
          warmFingerprint = currentFingerprint
        else warm.cacheIdentity = current.cacheIdentity
    | _, _ => false
  else true

/-- `multimodal_prefix_lcp`. -/
def multimodalPrefixLcp (tokens : List (BitVec 32)) (tokenLcp : ℕ)
    (warmIdentities currentIdentities : List MultimodalTokenIdentity)
    (warmFingerprint currentFingerprint : BitVec 64) : ℕ :=
  ((tokens.take tokenLcp).takeWhile (multimodalPrefixAgrees warmIdentities currentIdentities
    warmFingerprint currentFingerprint)).length

/-- The backend's token comparison: `while (D < lim && log[D] == prompt[D]) ++D`. -/
def tokenLcp : List (BitVec 32) → List (BitVec 32) → ℕ
  | s :: log, t :: prompt => if s = t then tokenLcp log prompt + 1 else 0
  | _, _ => 0

/-! ## Identities -/

/-- The identity of a visual row: its own, or that of the whole request where
the row has none. -/
inductive RowIdentity where
  | row (cacheIdentity : BitVec 64)
  | request (fingerprint : BitVec 64)
  deriving DecidableEq

/-- What identifies a row. -/
inductive RowKey where
  | text (token : BitVec 32)
  | visual (token source : BitVec 32) (position : Vector (BitVec 32) 3) (identity : RowIdentity)
  deriving DecidableEq

/-- The key of an entry of the table. -/
def MultimodalTokenIdentity.key (entry : MultimodalTokenIdentity) (fingerprint : BitVec 64)
    (token : BitVec 32) : RowKey :=
  .visual token entry.sourceTokenId entry.position
    (if entry.cacheIdentity = 0 then .request fingerprint else .row entry.cacheIdentity)

/-- The key of a row of a request; a visual token that the table does not know
has none. -/
def rowKey (identities : List MultimodalTokenIdentity) (fingerprint : BitVec 64)
    (token : BitVec 32) : Option RowKey :=
  if visual token then
    (multimodalTokenIdentity identities token).map fun entry => entry.key fingerprint token
  else some (.text token)

/-- Two lists of rows have the same, known row at an index. -/
def AgreeAt (warm request : List (Option RowKey)) (i : ℕ) : Prop :=
  ∃ key, warm[i]? = some (some key) ∧ request[i]? = some (some key)

/-- The length of the longest common prefix of known rows. -/
def IsCommonPrefix (warm request : List (Option RowKey)) (n : ℕ) : Prop :=
  IsGreatest {n | ∀ i < n, AgreeAt warm request i} n

theorem agreeAt_drop {warm request : List (Option RowKey)} {n i : ℕ} :
    AgreeAt (warm.drop n) (request.drop n) i ↔ AgreeAt warm request (n + i) := by
  unfold AgreeAt
  rw [List.getElem?_drop, List.getElem?_drop]

/-- Agreement up to the first place where there is none. -/
theorem isCommonPrefix_of_stop {warm request : List (Option RowKey)} {n : ℕ}
    (hall : ∀ i < n, AgreeAt warm request i) (hstop : ¬ AgreeAt warm request n) :
    IsCommonPrefix warm request n := by
  refine ⟨hall, fun m hm => ?_⟩
  by_contra hlt
  exact hstop (hm n (not_le.mp hlt))

variable {warmIdentities identities : List MultimodalTokenIdentity}
variable {warmFingerprint fingerprint : BitVec 64} {token token' : BitVec 32} {key : RowKey}

/-- A key names its token. -/
theorem rowKey_token (hw : rowKey warmIdentities warmFingerprint token = some key)
    (hc : rowKey identities fingerprint token' = some key) : token = token' := by
  unfold rowKey at hw hc
  split at hw <;> split at hc
  · obtain ⟨warm, -, rfl⟩ := Option.map_eq_some_iff.mp hw
    obtain ⟨current, -, heq⟩ := Option.map_eq_some_iff.mp hc
    exact (RowKey.visual.inj heq).1.symm
  · obtain ⟨warm, -, rfl⟩ := Option.map_eq_some_iff.mp hw
    exact nomatch Option.some.inj hc
  · obtain ⟨current, -, heq⟩ := Option.map_eq_some_iff.mp hc
    rw [← heq] at hw
    exact nomatch Option.some.inj hw
  · rw [← Option.some.inj hw] at hc
    exact (RowKey.text.inj (Option.some.inj hc)).symm

/-- The other comparison goes past rows of one key. -/
theorem multimodalPrefixAgrees_of_rowKey (hw : rowKey warmIdentities warmFingerprint token = some key)
    (hc : rowKey identities fingerprint token = some key) :
    multimodalPrefixAgrees warmIdentities identities warmFingerprint fingerprint token = true := by
  unfold multimodalPrefixAgrees
  split
  case isFalse => rfl
  case isTrue hvisual =>
    rw [rowKey, if_pos hvisual] at hw hc
    obtain ⟨warm, hwarm, rfl⟩ := Option.map_eq_some_iff.mp hw
    obtain ⟨current, hcurrent, heq⟩ := Option.map_eq_some_iff.mp hc
    obtain ⟨-, hsource, hposition, hidentity⟩ := RowKey.visual.inj heq
    rw [hwarm, hcurrent]
    dsimp only
    rw [if_neg (by rw [hsource, hposition]; simp)]
    -- the two identities are both the row's own, or both the request's
    by_cases h₀ : warm.cacheIdentity = 0 <;> by_cases h₁ : current.cacheIdentity = 0
    · rw [if_pos h₀, if_pos h₁] at hidentity
      rw [if_pos (.inl h₀), RowIdentity.request.inj hidentity]
      exact decide_eq_true rfl
    · rw [if_pos h₀, if_neg h₁] at hidentity
      cases hidentity
    · rw [if_neg h₀, if_pos h₁] at hidentity
      cases hidentity
    · rw [if_neg h₀, if_neg h₁] at hidentity
      rw [if_neg (not_or.mpr ⟨h₀, h₁⟩), RowIdentity.row.inj hidentity]
      exact decide_eq_true rfl

/-- Rows that agree are counted by the token comparison. -/
theorem le_tokenLcp {log prompt : List (BitVec 32)} {n : ℕ}
    (h : ∀ i < n, ∃ t, log[i]? = some t ∧ prompt[i]? = some t) : n ≤ tokenLcp log prompt := by
  induction n generalizing log prompt with
  | zero => exact Nat.zero_le _
  | succ n ih =>
      obtain ⟨t, hlog, hprompt⟩ := h 0 (Nat.succ_pos n)
      cases log with
      | nil => cases hlog
      | cons s log =>
          cases prompt with
          | nil => cases hprompt
          | cons u prompt =>
              cases hlog
              cases hprompt
              rw [tokenLcp, if_pos rfl]
              exact Nat.succ_le_succ (ih fun i hi => h (i + 1) (Nat.succ_lt_succ hi))

/-- What holds of the first elements of a list is not cut off. -/
theorem le_length_takeWhile {α : Type*} {p : α → Bool} {l : List α} {n : ℕ}
    (h : ∀ i < n, ∃ a, l[i]? = some a ∧ p a = true) : n ≤ (l.takeWhile p).length := by
  induction n generalizing l with
  | zero => exact Nat.zero_le _
  | succ n ih =>
      obtain ⟨a, ha, hp⟩ := h 0 (Nat.succ_pos n)
      cases l with
      | nil => cases ha
      | cons b l =>
          cases ha
          rw [List.takeWhile_cons_of_pos hp, List.length_cons]
          exact Nat.succ_le_succ (ih fun i hi => h (i + 1) (Nat.succ_lt_succ hi))

/-- Rows of one key are within the prefix that the other comparison allows. -/
theorem le_multimodalPrefixLcp {log tokens : List (BitVec 32)} {n : ℕ}
    (h : ∀ i < n, AgreeAt (log.map (rowKey warmIdentities warmFingerprint))
      (tokens.map (rowKey identities fingerprint)) i) :
    n ≤ multimodalPrefixLcp tokens (tokenLcp log tokens) warmIdentities identities
      warmFingerprint fingerprint := by
  have hrow : ∀ i < n, ∃ t, log[i]? = some t ∧ tokens[i]? = some t ∧
      multimodalPrefixAgrees warmIdentities identities warmFingerprint fingerprint t = true := by
    intro i hi
    obtain ⟨key, hw, hc⟩ := h i hi
    rw [List.getElem?_map, Option.map_eq_some_iff] at hw hc
    obtain ⟨s, hs, hw⟩ := hw
    obtain ⟨t, ht, hc⟩ := hc
    have hst := rowKey_token hw hc
    subst hst
    exact ⟨s, hs, ht, multimodalPrefixAgrees_of_rowKey hw hc⟩
  have hlcp : n ≤ tokenLcp log tokens := le_tokenLcp fun i hi => by
    obtain ⟨t, hs, ht, -⟩ := hrow i hi
    exact ⟨t, hs, ht⟩
  apply le_length_takeWhile
  intro i hi
  obtain ⟨t, -, ht, hp⟩ := hrow i hi
  refine ⟨t, ?_, hp⟩
  rw [List.getElem?_take_of_lt (hi.trans_le hlcp), ht]

end Qw3.Prefix
