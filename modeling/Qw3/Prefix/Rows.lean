import Qw3.Prefix.History

/-!
# Rows, their bytes and what identifies them

* `prefixCode_rowBytes` — the mixed serialization of text and visual rows can be
  read back from the front of a stream.
* `Row.equal_iff` — rows are equal when they have one known identity;
  `makeRow_key` reads it off the table the row was made from.
* `hashPrefix_eq`, `commonTail_spec` — the two loops of `match`.
-/

namespace Qw3.Prefix

/-! ## Rows and their bytes -/

theorem prefixCode_word : PrefixCode fun x : BitVec 32 => littleEndian 4 (x.setWidth 64) :=
  prefixCode_littleEndian (by decide) (by decide)

theorem prefixCode_identity : PrefixCode fun x : BitVec 64 => littleEndian 8 x := by
  have h := prefixCode_littleEndian (n := 64) (m := 64) (c := 8) (by decide) (by decide)
  simpa only [BitVec.setWidth_eq] using h

theorem prefixCode_flag :
    PrefixCode fun x : Bool => littleEndian 1 ((BitVec.ofBool x).setWidth 64) := by
  refine (prefixCode_littleEndian (n := 1) (m := 64) (by decide) (by decide)).comp ?_
  intro x y h
  cases x <;> cases y <;> first | rfl | cases h

/-- A text row is four bytes and a visual one thirty; the fourth byte says
which. -/
theorem prefixCode_rowBytes : PrefixCode rowBytes := by
  intro a b s t h
  unfold rowBytes at h
  rw [List.append_assoc, List.append_assoc] at h
  obtain ⟨htoken, hrest⟩ := prefixCode_word _ _ _ _ h
  obtain ⟨tokenA, sourceA, positionA, identityA, validA, fallbackA, textA⟩ := a
  obtain ⟨tokenB, sourceB, positionB, identityB, validB, fallbackB, textB⟩ := b
  obtain rfl : tokenA = tokenB := htoken
  dsimp only at hrest
  cases hvisual : visual tokenA with
  | true =>
      rw [if_pos hvisual, if_pos hvisual] at hrest
      have hbody := (((prefixCode_word.append (prefixCode_word.vector 3)).append
        prefixCode_identity).append prefixCode_flag).append prefixCode_flag
      obtain ⟨hfields, hst⟩ := hbody ((((sourceA, positionA), identityA), validA), fallbackA)
        ((((sourceB, positionB), identityB), validB), fallbackB) s t hrest
      simp only [Prod.mk.injEq] at hfields
      obtain ⟨⟨⟨⟨rfl, rfl⟩, rfl⟩, rfl⟩, rfl⟩ := hfields
      exact ⟨rfl, hst⟩
  | false =>
      have hnot : ¬ visual tokenA = true := Bool.eq_false_iff.mp hvisual
      rw [if_neg hnot, if_neg hnot] at hrest
      obtain ⟨rfl, rfl, rfl, rfl, rfl⟩ := textA hvisual
      obtain ⟨rfl, rfl, rfl, rfl, rfl⟩ := textB hvisual
      exact ⟨rfl, hrest⟩

/-- What identifies a row, read off the row. -/
def Row.key (row : Row) : Option RowKey :=
  if row.valid then
    some (if visual row.token then .visual row.token row.source row.position
      (if row.fallback then .request row.identity else .row row.identity) else .text row.token)
  else none

theorem makeRow_key (identities : List MultimodalTokenIdentity) (fingerprint : BitVec 64)
    (token : BitVec 32) : (makeRow identities fingerprint token).key =
      rowKey identities fingerprint token := by
  unfold makeRow rowKey
  by_cases hvisual : visual token
  · rw [dif_pos hvisual, if_pos hvisual]
    cases multimodalTokenIdentity identities token with
    | none => rfl
    | some entry =>
        by_cases hzero : entry.cacheIdentity = 0#64 <;>
          simp [Row.key, hvisual, MultimodalTokenIdentity.key, hzero]
  · rw [dif_neg hvisual, if_neg hvisual]
    simp [Row.key, hvisual]

/-- `equal` compares what identifies the rows. -/
theorem Row.equal_iff (a b : Row) :
    a.equal b = true ↔ ∃ key, a.key = some key ∧ b.key = some key := by
  obtain ⟨tokenA, sourceA, positionA, identityA, validA, fallbackA, textA⟩ := a
  obtain ⟨tokenB, sourceB, positionB, identityB, validB, fallbackB, textB⟩ := b
  simp only [Row.equal, Row.key, Bool.and_eq_true, decide_eq_true_eq]
  constructor
  · rintro ⟨⟨⟨⟨⟨⟨rfl, rfl⟩, rfl⟩, rfl⟩, rfl⟩, rfl⟩, rfl⟩
    exact ⟨_, if_pos rfl, if_pos rfl⟩
  · rintro ⟨key, hA, hB⟩
    split at hA
    case isFalse => cases hA
    case isTrue hvalidA =>
    split at hB
    case isFalse => cases hB
    case isTrue hvalidB =>
    rw [← Option.some.inj hB] at hA
    have hkey := Option.some.inj hA
    by_cases hvisualA : visual tokenA <;> by_cases hvisualB : visual tokenB
    · rw [if_pos hvisualA, if_pos hvisualB] at hkey
      obtain ⟨rfl, rfl, rfl, hidentity⟩ := RowKey.visual.inj hkey
      cases fallbackA <;> cases fallbackB <;> cases hidentity <;>
        exact ⟨⟨⟨⟨⟨⟨hvalidA, hvalidB⟩, rfl⟩, rfl⟩, rfl⟩, rfl⟩, rfl⟩
    · rw [if_pos hvisualA, if_neg hvisualB] at hkey
      cases hkey
    · rw [if_neg hvisualA, if_pos hvisualB] at hkey
      cases hkey
    · rw [if_neg hvisualA, if_neg hvisualB] at hkey
      obtain rfl := RowKey.text.inj hkey
      obtain ⟨rfl, rfl, rfl, rfl, rfl⟩ := textA (Bool.eq_false_iff.mpr hvisualA)
      obtain ⟨rfl, rfl, rfl, rfl, rfl⟩ := textB (Bool.eq_false_iff.mpr hvisualA)
      exact ⟨⟨⟨⟨⟨⟨rfl, rfl⟩, rfl⟩, rfl⟩, rfl⟩, rfl⟩, rfl⟩

variable {warmIdentities identities : List MultimodalTokenIdentity}
variable {warmFingerprint fingerprint : BitVec 64}

/-- Known rows are determined by what identifies them. -/
theorem makeRow_eq_of_rowKey {s t : BitVec 32} {key : RowKey}
    (hw : rowKey warmIdentities warmFingerprint s = some key)
    (hc : rowKey identities fingerprint t = some key) :
    makeRow warmIdentities warmFingerprint s = makeRow identities fingerprint t := by
  have h : (makeRow warmIdentities warmFingerprint s).equal (makeRow identities fingerprint t) :=
    (Row.equal_iff _ _).mpr ⟨key, by rw [makeRow_key, hw], by rw [makeRow_key, hc]⟩
  simp only [Row.equal, Bool.and_eq_true, decide_eq_true_eq] at h
  obtain ⟨⟨⟨⟨⟨⟨hvalid, hvalid'⟩, htoken⟩, hsource⟩, hposition⟩, hidentity⟩, hfallback⟩ := h
  generalize makeRow warmIdentities warmFingerprint s = a at *
  generalize makeRow identities fingerprint t = b at *
  cases a
  cases b
  simp_all

theorem makeRow_valid_iff (t : BitVec 32) :
    (makeRow identities fingerprint t).valid = true ↔
      ∃ key, rowKey identities fingerprint t = some key := by
  rw [← makeRow_key]
  cases h : (makeRow identities fingerprint t).valid <;> simp [Row.key, h]

/-! ## The loops of `match` -/

/-- Hashing rows is hashing their bytes. -/
theorem foldl_hashRow (hash : Sha256) (rows : List Row) :
    rows.foldl hashRow hash = hash.update (rows.flatMap rowBytes) :=
  Sha256.foldl_update rowBytes hash rows

/-- The loop before the tail comes to its end when every row is known. -/
theorem hashPrefix_eq (hash : Sha256) (tokens : List (BitVec 32)) :
    KvMemPrefixHistory.hashPrefix identities fingerprint hash tokens =
      if ∀ row ∈ tokens.map (makeRow identities fingerprint), row.valid = true then
        some (hash.update ((tokens.map (makeRow identities fingerprint)).flatMap rowBytes))
      else none := by
  induction tokens generalizing hash with
  | nil => rfl
  | cons token tokens ih =>
      rw [KvMemPrefixHistory.hashPrefix, ih]
      by_cases hvalid : (makeRow identities fingerprint token).valid = true
      · rw [if_pos hvalid]
        simp [hvalid, hashRow]
      · rw [if_neg hvalid, if_neg]
        intro h
        exact hvalid (h _ List.mem_cons_self)

/-- The loop over the tail stops at the first row that differs or is unknown. -/
theorem commonTail_spec (warmIdentities identities : List MultimodalTokenIdentity)
    (warmFingerprint fingerprint : BitVec 64) (log tokens : List (BitVec 32)) :
    (∀ i < KvMemPrefixHistory.commonTail identities fingerprint
        (log.map (makeRow warmIdentities warmFingerprint)) tokens,
      AgreeAt (log.map (rowKey warmIdentities warmFingerprint))
        (tokens.map (rowKey identities fingerprint)) i) ∧
    ¬ AgreeAt (log.map (rowKey warmIdentities warmFingerprint))
      (tokens.map (rowKey identities fingerprint))
      (KvMemPrefixHistory.commonTail identities fingerprint
        (log.map (makeRow warmIdentities warmFingerprint)) tokens) := by
  induction log generalizing tokens with
  | nil =>
      refine ⟨fun i hi => absurd hi (Nat.not_lt_zero _), ?_⟩
      rintro ⟨key, hkey, -⟩
      cases hkey
  | cons s log ih =>
      cases tokens with
      | nil =>
          refine ⟨fun i hi => absurd hi (Nat.not_lt_zero _), ?_⟩
          rintro ⟨key, -, hkey⟩
          cases hkey
      | cons t tokens =>
          rw [List.map_cons, KvMemPrefixHistory.commonTail]
          have hequal := Row.equal_iff (makeRow warmIdentities warmFingerprint s)
            (makeRow identities fingerprint t)
          rw [makeRow_key, makeRow_key] at hequal
          split
          case isTrue h =>
            obtain ⟨key, hs, ht⟩ := hequal.mp h
            obtain ⟨hall, hstop⟩ := ih tokens
            refine ⟨fun i hi => ?_, hstop⟩
            cases i with
            | zero => exact ⟨key, congrArg some hs, congrArg some ht⟩
            | succ i => exact hall i (Nat.lt_of_succ_lt_succ hi)
          case isFalse h =>
            refine ⟨fun i hi => absurd hi (Nat.not_lt_zero _), ?_⟩
            rintro ⟨key, hs, ht⟩
            exact h (hequal.mpr ⟨key, Option.some.inj hs, Option.some.inj ht⟩)

end Qw3.Prefix
