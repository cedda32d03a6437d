import Qw3.Prefix.Rows

/-!
# The history is exact about prefixes

* `Session.Facts` — the history holds the committed rows: the newest as they
  are, of the others the digest; and a proof of the current revision was made
  for a request that starts with those others.
* `Session.Facts.match_cases` — what a call of `match` finds.
* `Session.Facts.assign_proof` — going on from a verified prefix is starting
  again.
* `Session.inv_reachable` — so it is after every call.
* `prefixIdentity` — **a proof changes nothing, and `match` is exact**.
-/

namespace Qw3.Prefix

variable {this : ℕ} {s t : Session}

/-! ## What holds between calls -/

/-- A proof of the current revision was made for a request that starts with the
rows before the tail. -/
def Issued.Ok (i : Issued) (history : KvMemPrefixHistory) (committed : Committed) : Prop :=
  i.proof.revision ≤ history.revision ∧
  (i.proof.revision = history.revision → i.proof.prefixVerified = true →
    history.tailBegin ≤ i.tokens.length ∧
    (i.tokens.take history.tailBegin).map (makeRow i.identities i.proof.fingerprint) =
      committed.rows.take history.tailBegin)

/-- What the history knows of the committed rows. -/
structure Session.Facts (s : Session) : Prop where
  size : s.history.end_ = s.committed.tokens.length
  tail : s.history.tail = s.committed.rows.drop s.history.tailBegin
  state : s.history.prefixState =
    (s.committed.rows.take s.history.tailBegin).foldl hashRow {}
  digest : s.history.prefixDigest = s.history.prefixState.finishHex
  digested : (s.committed.rows.take s.history.tailBegin).flatMap rowBytes ∈ s.digested
  issued : ∀ i ∈ s.issued, i.Ok s.history s.committed

/-- As long as SHA-256 has told the streams apart. -/
def Session.Inv (s : Session) : Prop := CollisionFree s.digested → s.Facts

theorem CollisionFree.mono {l m : List (List (BitVec 8))} (h : CollisionFree m) (hsub : l ⊆ m) :
    CollisionFree l :=
  fun x hx y hy => h x (hsub hx) y (hsub hy)

/-- Cutting a fold in two. -/
theorem foldl_take_drop {α β : Type*} (f : β → α → β) (b : β) (l : List α) (n : ℕ) :
    (l.drop n).foldl f ((l.take n).foldl f b) = l.foldl f b := by
  rw [← List.foldl_append, List.take_append_drop]

theorem length_rows (c : Committed) : c.rows.length = c.tokens.length :=
  List.length_map _

/-! ## What `match` finds -/

namespace Session.Facts

theorem tailBegin_le (hs : s.Facts) : s.history.tailBegin ≤ s.committed.tokens.length :=
  (Nat.sub_le _ _).trans_eq hs.size

/-- The stored digest is that of the rows before the tail. -/
theorem prefixDigest_eq (hs : s.Facts) : s.history.prefixDigest =
    sha256 ((s.committed.rows.take s.history.tailBegin).flatMap rowBytes) := by
  rw [hs.digest, hs.state, foldl_hashRow]
  rfl

variable {tokens : List (BitVec 32)} {identities : List MultimodalTokenIdentity}
variable {fingerprint : BitVec 64}

/-- Rows that agree with the committed ones before the tail are those rows. -/
theorem rows_eq_of_agree
    (h : ∀ i < s.history.tailBegin,
      AgreeAt s.committed.keys (tokens.map (rowKey identities fingerprint)) i) :
    (tokens.take s.history.tailBegin).map (makeRow identities fingerprint) =
      s.committed.rows.take s.history.tailBegin := by
  rw [Committed.rows, ← List.map_take]
  apply List.ext_getElem?
  intro i
  rw [List.getElem?_map, List.getElem?_map]
  by_cases hi : i < s.history.tailBegin
  · obtain ⟨key, hw, hc⟩ := h i hi
    rw [Committed.keys, List.getElem?_map, Option.map_eq_some_iff] at hw
    rw [List.getElem?_map, Option.map_eq_some_iff] at hc
    obtain ⟨a, ha, hw⟩ := hw
    obtain ⟨b, hb, hc⟩ := hc
    rw [List.getElem?_take_of_lt hi, List.getElem?_take_of_lt hi, ha, hb]
    exact congrArg some (makeRow_eq_of_rowKey hc hw)
  · rw [List.getElem?_take_eq_none (not_lt.mp hi), List.getElem?_take_eq_none (not_lt.mp hi)]
    rfl

/-- Equal known rows agree. -/
theorem agree_of_rows_eq (hs : s.Facts) (hlen : s.history.tailBegin ≤ tokens.length)
    (hvalid : ∀ row ∈ (tokens.take s.history.tailBegin).map (makeRow identities fingerprint),
      row.valid = true)
    (hrows : (tokens.take s.history.tailBegin).map (makeRow identities fingerprint) =
      s.committed.rows.take s.history.tailBegin) {i : ℕ} (hi : i < s.history.tailBegin) :
    AgreeAt s.committed.keys (tokens.map (rowKey identities fingerprint)) i := by
  have hi' := hi.trans_le hlen
  have hrow := congrArg (fun rows : List Row => rows[i]?) hrows
  rw [Committed.rows, ← List.map_take] at hrow
  rw [List.getElem?_map, List.getElem?_map, List.getElem?_take_of_lt hi,
    List.getElem?_take_of_lt hi, List.getElem?_eq_getElem hi',
    List.getElem?_eq_getElem (hi.trans_le hs.tailBegin_le)] at hrow
  have hmem : makeRow identities fingerprint tokens[i] ∈
      (tokens.take s.history.tailBegin).map (makeRow identities fingerprint) :=
    List.mem_map_of_mem (List.mem_take_iff_getElem.mpr ⟨i, by omega, rfl⟩)
  obtain ⟨key, hkey⟩ := (makeRow_valid_iff _).mp (hvalid _ hmem)
  refine ⟨key, ?_, ?_⟩
  · rw [Committed.keys, List.getElem?_map,
      List.getElem?_eq_getElem (hi.trans_le hs.tailBegin_le), Option.map_some, ← makeRow_key,
      ← Option.some.inj hrow, makeRow_key, hkey]
  · rw [List.getElem?_map, List.getElem?_eq_getElem hi', Option.map_some, hkey]

end Session.Facts

/-- The request is not the committed rows before the tail: it is too short, has
an unknown row there or differs there. -/
def Outside (s : Session) (tokens : List (BitVec 32))
    (identities : List MultimodalTokenIdentity) (fingerprint : BitVec 64) : Prop :=
  tokens.length < s.history.tailBegin ∨
  (∃ i < s.history.tailBegin, (tokens.map (rowKey identities fingerprint))[i]? = some none) ∨
  ∃ i < s.history.tailBegin,
    (tokens.map (rowKey identities fingerprint))[i]? ≠ s.committed.keys[i]?

variable {tokens : Vec (BitVec 32)} {identities : Vec MultimodalTokenIdentity}
variable {fingerprint : BitVec 64}

/-- What does not agree is unknown or differs. -/
theorem outside_of_not_agree {tokens : List (BitVec 32)}
    {identities : List MultimodalTokenIdentity}
    (h : ¬ ∀ i < s.history.tailBegin,
      AgreeAt s.committed.keys (tokens.map (rowKey identities fingerprint)) i) :
    Outside s tokens identities fingerprint := by
  push Not at h
  obtain ⟨i, hi, hne⟩ := h
  by_cases hlen : s.history.tailBegin ≤ tokens.length
  case neg => exact .inl (not_le.mp hlen)
  right
  have hi' := hi.trans_le hlen
  cases hkey : rowKey identities fingerprint tokens[i] with
  | none =>
      refine .inl ⟨i, hi, ?_⟩
      rw [List.getElem?_map, List.getElem?_eq_getElem hi', Option.map_some, hkey]
  | some key =>
      have hsome : (tokens.map (rowKey identities fingerprint))[i]? = some (some key) := by
        rw [List.getElem?_map, List.getElem?_eq_getElem hi', Option.map_some, hkey]
      refine .inr ⟨i, hi, fun heq => hne ⟨key, ?_, hsome⟩⟩
      rw [← heq, hsome]

/-- The rows before the tail are known, and their digest is the stored one. -/
def Verifies (history : KvMemPrefixHistory) (tokens : List (BitVec 32))
    (identities : List MultimodalTokenIdentity) (fingerprint : BitVec 64) : Prop :=
  let rows := (tokens.take history.tailBegin).map (makeRow identities fingerprint)
  history.tailBegin ≤ tokens.length ∧ (∀ row ∈ rows, row.valid = true) ∧
    sha256 (rows.flatMap rowBytes) = history.prefixDigest

/-- `match` verifies the rows before the tail, then counts equal rows in it. -/
theorem match_of_verifies {history : KvMemPrefixHistory}
    (h : Verifies history tokens.elems identities.elems fingerprint) :
    let m := history.match_ this tokens identities fingerprint
    m.outsideRetainedTail = false ∧ m.commonPrefix = history.tailBegin +
      KvMemPrefixHistory.commonTail identities.elems fingerprint history.tail
        (tokens.elems.drop history.tailBegin) := by
  obtain ⟨hlen, hvalid, hdigest⟩ := h
  rw [sha256] at hdigest
  unfold KvMemPrefixHistory.match_
  dsimp only
  rw [hashPrefix_eq, if_neg (not_lt.mpr hlen), if_pos hvalid]
  dsimp only
  rw [if_neg (not_not.mpr hdigest)]
  exact ⟨rfl, rfl⟩

theorem match_of_not_verifies (this : ℕ) {history : KvMemPrefixHistory}
    (h : ¬ Verifies history tokens.elems identities.elems fingerprint) :
    let m := history.match_ this tokens identities fingerprint
    m.outsideRetainedTail = true ∧ m.prefixVerified = false ∧ m.commonPrefix = 0 := by
  unfold KvMemPrefixHistory.match_
  dsimp only
  rw [hashPrefix_eq]
  by_cases hlen : tokens.elems.length < history.tailBegin
  · rw [if_pos hlen]
    exact ⟨rfl, rfl, rfl⟩
  rw [if_neg hlen]
  by_cases hvalid : ∀ row ∈ (tokens.elems.take history.tailBegin).map
      (makeRow identities.elems fingerprint), row.valid = true
  · rw [if_pos hvalid]
    dsimp only
    split
    case isTrue => exact ⟨rfl, rfl, rfl⟩
    case isFalse hdigest => exact absurd ⟨not_lt.mp hlen, hvalid, not_not.mp hdigest⟩ h
  · rw [if_neg hvalid]
    exact ⟨rfl, rfl, rfl⟩

/-- A proof names the request's fingerprint and the history's revision. -/
theorem match_stamp (this : ℕ) (history : KvMemPrefixHistory) (tokens : Vec (BitVec 32))
    (identities : Vec MultimodalTokenIdentity) (fingerprint : BitVec 64) :
    let m := history.match_ this tokens identities fingerprint
    m.revision = history.revision ∧ m.fingerprint = fingerprint := by
  unfold KvMemPrefixHistory.match_
  dsimp only
  split
  · exact ⟨rfl, rfl⟩
  split
  · exact ⟨rfl, rfl⟩
  split <;> exact ⟨rfl, rfl⟩

namespace Session.Facts

/-- A request that is the committed rows before the tail verifies. -/
theorem verifies (hs : s.Facts)
    (h : ∀ i < s.history.tailBegin, AgreeAt s.committed.keys
      (tokens.elems.map (rowKey identities.elems fingerprint)) i) :
    Verifies s.history tokens.elems identities.elems fingerprint := by
  have hlen : s.history.tailBegin ≤ tokens.elems.length := by
    by_contra hlt
    obtain ⟨key, -, hkey⟩ := h _ (not_le.mp hlt)
    rw [List.getElem?_map, List.getElem?_eq_none le_rfl] at hkey
    cases hkey
  refine ⟨hlen, fun row hrow => ?_, by rw [rows_eq_of_agree h, hs.prefixDigest_eq]⟩
  obtain ⟨token, htoken, rfl⟩ := List.mem_map.mp hrow
  obtain ⟨i, hi, rfl⟩ := List.mem_take_iff_getElem.mp htoken
  obtain ⟨key, -, hkey⟩ := h i (by omega)
  rw [List.getElem?_map, List.getElem?_eq_getElem (by omega), Option.map_some] at hkey
  exact (makeRow_valid_iff _).mpr ⟨key, Option.some.inj hkey⟩

/-- The digests are equal: so are the streams, and so the rows. -/
theorem rows_eq_of_verifies (hs : s.Facts)
    (hfree : CollisionFree (s.matchStream tokens.elems identities.elems fingerprint ++
      s.digested)) (h : Verifies s.history tokens.elems identities.elems fingerprint) :
    (tokens.elems.take s.history.tailBegin).map (makeRow identities.elems fingerprint) =
      s.committed.rows.take s.history.tailBegin := by
  obtain ⟨hlen, hvalid, hdigest⟩ := h
  have hstream : ((tokens.elems.take s.history.tailBegin).map
      (makeRow identities.elems fingerprint)).flatMap rowBytes ∈
      s.matchStream tokens.elems identities.elems fingerprint := by
    unfold Session.matchStream
    dsimp only
    rw [if_pos ⟨hlen, hvalid⟩]
    exact List.mem_singleton_self _
  apply prefixCode_rowBytes.flatMap
  · rw [List.length_map, List.length_take_of_le hlen,
      List.length_take_of_le (hs.tailBegin_le.trans_eq (length_rows _).symm)]
  · exact hfree _ (List.mem_append_left _ hstream) _ (List.mem_append_right _ hs.digested)
      (hdigest.trans hs.prefixDigest_eq)

/-- A request that is not the committed rows before the tail is outside it. -/
theorem outside (hs : s.Facts)
    (h : ¬ Verifies s.history tokens.elems identities.elems fingerprint) :
    Outside s tokens.elems identities.elems fingerprint :=
  outside_of_not_agree fun hagree => h (hs.verifies hagree)

/-- Of any other, `match` finds the longest common prefix. -/
theorem isCommonPrefix (this : ℕ) (hs : s.Facts)
    (hfree : CollisionFree (s.matchStream tokens.elems identities.elems fingerprint ++
      s.digested)) (h : Verifies s.history tokens.elems identities.elems fingerprint) :
    IsCommonPrefix s.committed.keys (tokens.elems.map (rowKey identities.elems fingerprint))
      (s.history.match_ this tokens identities fingerprint).commonPrefix := by
  have hrows := hs.rows_eq_of_verifies hfree h
  rw [(match_of_verifies h).2]
  obtain ⟨hall, hstop⟩ := commonTail_spec s.committed.identities identities.elems
    s.committed.fingerprint fingerprint (s.committed.tokens.drop s.history.tailBegin)
    (tokens.elems.drop s.history.tailBegin)
  rw [List.map_drop, List.map_drop, List.map_drop, agreeAt_drop] at hstop
  rw [List.map_drop, List.map_drop, List.map_drop] at hall
  rw [hs.tail]
  refine isCommonPrefix_of_stop (fun i hi => ?_) hstop
  rcases lt_or_ge i s.history.tailBegin with hlt | hge
  · exact hs.agree_of_rows_eq h.1 h.2.1 hrows hlt
  · have hagree := hall (i - s.history.tailBegin) (by
      rw [Committed.rows] at hi
      omega)
    rw [agreeAt_drop, Nat.add_sub_cancel' hge] at hagree
    exact hagree

end Session.Facts

/-! ## What `assign` keeps -/

/-- What `assign` commits. -/
def assigned (prompt : Vec (BitVec 32)) (emitted : List (BitVec 32)) (committed : ℕ)
    (identities : Vec MultimodalTokenIdentity) (fingerprint : BitVec 64) : Committed :=
  ⟨(prompt.elems ++ emitted).take committed, identities.elems, fingerprint⟩

section Assign

variable {prompt : Vec (BitVec 32)} {emitted : List (BitVec 32)} {committed keepTokens : ℕ}
variable {proof : Option Match} {m : Match} {history : KvMemPrefixHistory}

/-- The rows that a consumed proof verified begin the new request. -/
theorem Session.Facts.rows_of_accepts (hs : s.Facts) (emitted : List (BitVec 32))
    (hheld : s.Holds this prompt identities fingerprint (committed - keepTokens) m)
    (h : s.history.accepts this prompt identities fingerprint (committed - keepTokens) m = true) :
    (((assigned prompt emitted committed identities fingerprint).rows.take
      (committed - keepTokens)).take s.history.tailBegin) =
      s.committed.rows.take s.history.tailBegin := by
  have haccepts := h
  unfold KvMemPrefixHistory.accepts at h
  simp only [Bool.and_eq_true, decide_eq_true_eq] at h
  obtain ⟨⟨⟨⟨⟨⟨⟨⟨howner, hrevision⟩, hverified⟩, -⟩, -⟩, -⟩, -⟩, hfingerprint⟩, hbegin⟩ := h
  obtain ⟨i, hi, rfl, hsame⟩ := hheld.resolve_left (not_not.mpr howner)
  obtain ⟨htokens, hidentities⟩ := hsame haccepts
  obtain ⟨hlen, hrows⟩ := (hs.issued i hi).2 hrevision hverified
  rw [← htokens] at hlen hrows
  rw [← hrows, ← hidentities, hfingerprint, List.take_take, min_eq_left hbegin, Committed.rows,
    ← List.map_take, assigned, List.take_take, min_eq_left (hbegin.trans (Nat.sub_le _ _)),
    List.take_append_of_le_length hlen]

/-- Going on from a verified prefix is starting again. -/
theorem Session.Facts.assign_proof (hs : s.Facts)
    (hheld : ∀ m ∈ proof, s.Holds this prompt identities fingerprint (committed - keepTokens) m) :
    s.history.assign this prompt emitted committed identities fingerprint keepTokens proof =
      s.history.assign this prompt emitted committed identities fingerprint keepTokens none := by
  cases proof with
  | none => rfl
  | some m =>
      by_cases haccepts : s.history.accepts this prompt identities fingerprint
        (committed - keepTokens) m = true
      case neg =>
        unfold KvMemPrefixHistory.assign
        simp only [Option.any_some, Option.any_none, haccepts]
      have hrows := hs.rows_of_accepts emitted (hheld m rfl) haccepts
      rw [Committed.rows, assigned] at hrows
      unfold KvMemPrefixHistory.assign
      simp only [Option.any_some, Option.any_none, haccepts, Bool.false_eq_true, if_false, if_true,
        List.drop_zero]
      rw [hs.state, ← hrows, foldl_take_drop]

/-- What `assign` leaves, when it does not throw. -/
theorem assign_none_eq_ok
    (h : s.history.assign this prompt emitted committed identities fingerprint keepTokens none =
      .ok history) :
    let new := assigned prompt emitted committed identities fingerprint
    history.tailBegin = committed - keepTokens ∧ history.revision = s.history.revision + 1 ∧
      history.end_ = new.tokens.length ∧ history.tail = new.rows.drop history.tailBegin ∧
      history.prefixState = (new.rows.take history.tailBegin).foldl hashRow {} ∧
      history.prefixDigest = history.prefixState.finishHex := by
  unfold KvMemPrefixHistory.assign at h
  split at h
  case isTrue => cases h
  case isFalse hok =>
    obtain ⟨-, hle⟩ := not_or.mp hok
    have hlen : ((prompt.elems ++ emitted).take committed).length = committed :=
      List.length_take_of_le (by rw [List.length_append]; exact not_lt.mp hle)
    rw [← Except.ok.inj h]
    have hbegin : committed - (committed - (committed - keepTokens)) = committed - keepTokens :=
      Nat.sub_sub_self (Nat.sub_le _ _)
    simp only [KvMemPrefixHistory.tailBegin, assigned, Committed.rows, List.length_drop,
      List.length_map, hlen, hbegin]
    exact ⟨trivial, trivial, trivial, trivial, rfl, trivial⟩

end Assign

/-- A proof of an older revision says nothing. -/
theorem Issued.Ok.older {i : Issued} {history history' : KvMemPrefixHistory}
    {committed committed' : Committed} (h : i.Ok history committed)
    (hrevision : history'.revision = history.revision + 1) : i.Ok history' committed' := by
  refine ⟨by have := h.1; omega, fun heq => ?_⟩
  have := h.1
  omega

/-! ## Every call -/

theorem Session.Facts.clear (hs : s.Facts) :
    Session.Facts { s with
      history := s.history.clear
      committed := {}
      digested := [] :: s.digested } where
  size := rfl
  tail := rfl
  state := rfl
  digest := by dsimp only [KvMemPrefixHistory.clear]
  digested := List.mem_cons_self
  issued i hi := (hs.issued i hi).older rfl

/-- The proof that `match` makes of the current revision. -/
theorem Session.Facts.issued_match (hs : s.Facts)
    (hfree : CollisionFree (s.matchStream tokens.elems identities.elems fingerprint ++
      s.digested)) :
    Issued.Ok ⟨s.history.match_ this tokens identities fingerprint, tokens.elems,
      identities.elems⟩ s.history s.committed := by
  obtain ⟨hrevision, hfingerprint⟩ := match_stamp this s.history tokens identities fingerprint
  refine ⟨hrevision.le, fun _ hverified => ?_⟩
  have h : Verifies s.history tokens.elems identities.elems fingerprint := by
    by_contra h
    rw [(match_of_not_verifies this h).2.1] at hverified
    cases hverified
  dsimp only
  rw [hfingerprint]
  exact ⟨h.1, hs.rows_eq_of_verifies hfree h⟩

theorem Session.Facts.match_ (hs : s.Facts)
    (hfree : CollisionFree (s.matchStream tokens.elems identities.elems fingerprint ++
      s.digested)) :
    Session.Facts { s with
      issued := ⟨s.history.match_ this tokens identities fingerprint, tokens.elems,
        identities.elems⟩ :: s.issued
      digested := s.matchStream tokens.elems identities.elems fingerprint ++ s.digested } where
  size := hs.size
  tail := hs.tail
  state := hs.state
  digest := hs.digest
  digested := List.mem_append_right _ hs.digested
  issued i hi := by
    rcases List.mem_cons.mp hi with rfl | hi
    · exact hs.issued_match hfree
    · exact hs.issued i hi

theorem Session.Facts.assign (hs : s.Facts) {prompt : Vec (BitVec 32)}
    {emitted : List (BitVec 32)} {committed keepTokens : ℕ} {history : KvMemPrefixHistory}
    (h : s.history.assign this prompt emitted committed identities fingerprint keepTokens none =
      .ok history) :
    Session.Facts { s with
      history := history
      committed := assigned prompt emitted committed identities fingerprint
      digested := ((assigned prompt emitted committed identities fingerprint).rows.take
        (committed - keepTokens)).flatMap rowBytes :: s.digested } := by
  obtain ⟨hbegin, hrevision, hsize, htail, hstate, hdigest⟩ := assign_none_eq_ok h
  exact {
    size := hsize
    tail := htail
    state := hstate
    digest := hdigest
    digested := by
      rw [hbegin]
      exact List.mem_cons_self
    issued := fun i hi => (hs.issued i hi).older hrevision }

theorem Session.inv_init : Session.Inv ⟨.new, {}, [], [[]]⟩ := by
  intro _
  exact {
    size := rfl
    tail := rfl
    state := rfl
    digest := by dsimp only [KvMemPrefixHistory.new, KvMemPrefixHistory.clear]
    digested := List.mem_cons_self
    issued := fun i hi => absurd hi List.not_mem_nil }

/-- Every call keeps what the history knows. -/
theorem Session.inv_step (hs : s.Inv) {call : Call} (h : s.step this call = some t) : t.Inv := by
  intro hfree
  cases call with
  | assign prompt emitted committed identities fingerprint keepTokens proof =>
      rw [Session.step] at h
      split at h
      case isFalse => cases h
      case isTrue hheld =>
        cases hassign : s.history.assign this prompt emitted committed identities fingerprint
          keepTokens proof with
        | error e =>
            rw [hassign] at h
            cases h
            exact hs hfree
        | ok history =>
            rw [hassign] at h
            cases h
            have hfacts := hs (hfree.mono (List.subset_cons_self _ _))
            rw [hfacts.assign_proof hheld] at hassign
            exact hfacts.assign hassign
  | clear =>
      cases h
      exact (hs (hfree.mono (List.subset_cons_self _ _))).clear
  | match_ tokens identities fingerprint =>
      cases h
      exact (hs (hfree.mono (List.subset_append_right _ _))).match_ hfree

theorem Session.inv_reachable (hs : (machine this).Reachable s) : s.Inv :=
  Machine.Invariant.reachable (I := Session.Inv)
    ⟨fun _ h => by rw [h]; exact Session.inv_init, fun _ _ _ hs h => Session.inv_step hs h⟩ hs

/-! ## Exactness -/

/-- **Prefix identity is exact.**  After any calls: `assign` with a proof leaves
what it leaves without one; and `match` either reports that the request is not
the committed rows before the tail, or returns the length of the longest common
prefix of known rows.  What it returns is never more than the other comparison
allows. -/
theorem prefixIdentity (hs : (machine this).Reachable s) :
    (CollisionFree s.digested → ∀ prompt emitted committed identities fingerprint keepTokens proof,
      (∀ m ∈ proof, s.Holds this prompt identities fingerprint (committed - keepTokens) m) →
      s.history.assign this prompt emitted committed identities fingerprint keepTokens proof =
        s.history.assign this prompt emitted committed identities fingerprint keepTokens none) ∧
    ∀ tokens identities fingerprint,
      CollisionFree (s.matchStream tokens.elems identities.elems fingerprint ++ s.digested) →
      let m := s.history.match_ this tokens identities fingerprint
      (m.outsideRetainedTail = true ∧ Outside s tokens.elems identities.elems fingerprint ∨
        m.outsideRetainedTail = false ∧ IsCommonPrefix s.committed.keys
          (tokens.elems.map (rowKey identities.elems fingerprint)) m.commonPrefix) ∧
      m.commonPrefix ≤ multimodalPrefixLcp tokens.elems
        (tokenLcp s.committed.tokens tokens.elems) s.committed.identities identities.elems
        s.committed.fingerprint fingerprint := by
  constructor
  · intro hfree prompt emitted committed identities fingerprint keepTokens proof hheld
    exact (Session.inv_reachable hs hfree).assign_proof hheld
  · intro tokens identities fingerprint hfree
    have hfacts := Session.inv_reachable hs (hfree.mono (List.subset_append_right _ _))
    by_cases h : Verifies s.history tokens.elems identities.elems fingerprint
    · have hcommon := hfacts.isCommonPrefix this hfree h
      exact ⟨.inr ⟨(match_of_verifies h).1, hcommon⟩, le_multimodalPrefixLcp hcommon.1⟩
    · obtain ⟨houtside, -, hzero⟩ := match_of_not_verifies this h
      exact ⟨.inl ⟨houtside, hfacts.outside h⟩, hzero.trans_le (Nat.zero_le _)⟩

/-! ### A request that goes on from the committed rows -/

/-- The visual rows of the request below. -/
def requestIdentities : Vec MultimodalTokenIdentity := ⟨20, [⟨0x80000001, 7, #v[1, 2, 3], 9⟩]⟩

/-- The request below: its first row is visual. -/
def request : Vec (BitVec 32) := ⟨30, [0x80000001, 6, 7]⟩

/-- The calls so far: two rows committed, of which one is kept, and a `match`. -/
def requestCalls : List Call := [
  .assign ⟨10, [0x80000001, 6]⟩ [] 2 requestIdentities 0 1 none,
  .match_ request requestIdentities 0]

/-- The proof is consumed, and the whole of what was committed is common. -/
theorem prefixIdentity_request : ∃ s, (machine 1).Reachable s ∧
    let m := s.history.match_ 1 request requestIdentities 0
    s.history.accepts 1 request requestIdentities 0 3 m = true ∧
    s.history.assign 1 request [8] 4 requestIdentities 0 1 (some m) =
      s.history.assign 1 request [8] 4 requestIdentities 0 1 none ∧
    m.commonPrefix = 2 ∧
    IsCommonPrefix s.committed.keys (request.elems.map (rowKey requestIdentities.elems 0)) 2 := by
  have hrun : ((machine 1).run ⟨.new, {}, [], [[]]⟩ requestCalls).any (fun s =>
      let m := s.history.match_ 1 request requestIdentities 0
      decide (CollisionFree (s.matchStream request.elems requestIdentities.elems 0 ++ s.digested) ∧
        s.Holds 1 request requestIdentities 0 (4 - 1) m ∧
        s.history.accepts 1 request requestIdentities 0 3 m = true ∧
        m.outsideRetainedTail = false ∧ m.commonPrefix = 2)) = true := by
    decide +kernel
  obtain ⟨s, hs, hcheck⟩ := Machine.exists_reachable rfl hrun
  obtain ⟨hfree, hheld, haccepts, hinside, htwo⟩ := of_decide_eq_true hcheck
  obtain ⟨hassign, hmatch⟩ := prefixIdentity hs
  obtain ⟨⟨houtside, -⟩ | ⟨-, hcommon⟩, -⟩ := hmatch request requestIdentities 0 hfree
  · rw [hinside] at houtside
    cases houtside
  · rw [htwo] at hcommon
    refine ⟨s, hs, haccepts, ?_, htwo, hcommon⟩
    apply hassign (hfree.mono (List.subset_append_right _ _))
    intro m hm
    rw [← Option.some.inj hm]
    exact hheld

end Qw3.Prefix
