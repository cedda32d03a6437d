import Qw3.Lib.Machine
import Qw3.Lib.PrefixCode
import Qw3.Prefix.Identity

/-!
# The bounded history of committed rows

`kvmem_prefix_history.hpp`: the rows a lineage has committed, of which only the
newest are kept; of the others the history knows a digest.

* `Row`, `makeRow`, `Row.equal`, `hashRow` — a row, and how it is compared and
  hashed.
* `Match`, `KvMemPrefixHistory.match_`, `KvMemPrefixHistory.assign`,
  `KvMemPrefixHistory.clear` — the source's type and its calls.
* `Session`, `machine` — a history and those who call it, with what they
  committed.
-/

namespace Qw3.Prefix

/-- `KvMemPrefixHistory::Row`; only visual rows have more than a token. -/
structure Row where
  token : BitVec 32
  source : BitVec 32 := 0
  position : Vector (BitVec 32) 3 := #v[0, 0, 0]
  identity : BitVec 64 := 0
  valid : Bool := true
  fallback : Bool := false
  text : visual token = false →
    source = 0 ∧ position = #v[0, 0, 0] ∧ identity = 0 ∧ valid = true ∧ fallback = false
  deriving DecidableEq

/-- `make_row`. -/
def makeRow (identities : List MultimodalTokenIdentity) (fingerprint : BitVec 64)
    (token : BitVec 32) : Row :=
  if h : visual token then
    match multimodalTokenIdentity identities token with
    | none => { token, valid := false, text := by simp [h] }
    | some entry => {
        token
        source := entry.sourceTokenId
        position := entry.position
        fallback := entry.cacheIdentity = 0
        identity := if entry.cacheIdentity = 0 then fingerprint else entry.cacheIdentity
        text := by simp [h] }
  else { token, text := fun _ => ⟨rfl, rfl, rfl, rfl, rfl⟩ }

/-- `equal`. -/
def Row.equal (a b : Row) : Bool :=
  a.valid && b.valid && a.token = b.token && a.source = b.source && a.position = b.position &&
    a.identity = b.identity && a.fallback = b.fallback

/-- The bytes that `hash_row` adds for a visual row: `add(value, count)` takes a
64-bit value. -/
def visualBytes (row : Row) : List (BitVec 8) :=
  littleEndian 4 (row.source.setWidth 64) ++
  (row.position.toList.flatMap fun value => littleEndian 4 (value.setWidth 64)) ++
  littleEndian 8 row.identity ++
  littleEndian 1 ((BitVec.ofBool row.valid).setWidth 64) ++
  littleEndian 1 ((BitVec.ofBool row.fallback).setWidth 64)

/-- The bytes that `hash_row` serializes. -/
def rowBytes (row : Row) : List (BitVec 8) :=
  littleEndian 4 (row.token.setWidth 64) ++ if visual row.token then visualBytes row else []

/-- `hash_row`. -/
def hashRow (hash : Sha256) (row : Row) : Sha256 := hash.update (rowBytes row)

/-- A vector: where it is stored, and what it holds. -/
structure Vec (α : Type) where
  data : ℕ
  elems : List α
  deriving DecidableEq

/-- `KvMemPrefixHistory::Match`; addresses are numbers, and 0 is the null
pointer. -/
structure Match where
  commonPrefix : ℕ := 0
  outsideRetainedTail : Bool := false
  owner : ℕ := 0
  revision : ℕ := 0
  tokens : ℕ := 0
  tokenCount : ℕ := 0
  identities : ℕ := 0
  identityCount : ℕ := 0
  fingerprint : BitVec 64 := 0
  prefixVerified : Bool := false
  deriving DecidableEq

/-- `KvMemPrefixHistory`. -/
structure KvMemPrefixHistory where
  prefixState : Sha256
  prefixDigest : List Char
  tail : List Row
  end_ : ℕ
  revision : ℕ
  deriving DecidableEq

namespace KvMemPrefixHistory

/-- `tail_begin`. -/
def tailBegin (history : KvMemPrefixHistory) : ℕ := history.end_ - history.tail.length

/-- The loop of `match` over the rows before the tail; it stops at a visual row
without an identity. -/
def hashPrefix (identities : List MultimodalTokenIdentity) (fingerprint : BitVec 64) :
    Sha256 → List (BitVec 32) → Option Sha256
  | hash, [] => some hash
  | hash, token :: rest =>
      let row := makeRow identities fingerprint token
      if row.valid then hashPrefix identities fingerprint (hashRow hash row) rest else none

/-- The loop of `match` over the tail: how many rows are equal. -/
def commonTail (identities : List MultimodalTokenIdentity) (fingerprint : BitVec 64) :
    List Row → List (BitVec 32) → ℕ
  | row :: tail, token :: tokens =>
      if row.equal (makeRow identities fingerprint token) then
        commonTail identities fingerprint tail tokens + 1
      else 0
  | _, _ => 0

/-- `match`, of the history at address `this`. -/
def match_ (history : KvMemPrefixHistory) (this : ℕ) (tokens : Vec (BitVec 32))
    (identities : Vec MultimodalTokenIdentity) (fingerprint : BitVec 64) : Match :=
  let result : Match := {
    owner := this
    revision := history.revision
    tokens := tokens.data
    tokenCount := tokens.elems.length
    identities := identities.data
    identityCount := identities.elems.length
    fingerprint := fingerprint }
  let begin_ := history.tailBegin
  if tokens.elems.length < begin_ then { result with outsideRetainedTail := true }
  else
    match hashPrefix identities.elems fingerprint {} (tokens.elems.take begin_) with
    | none => { result with outsideRetainedTail := true }
    | some hash =>
        if hash.finishHex ≠ history.prefixDigest then { result with outsideRetainedTail := true }
        else
          { result with
            prefixVerified := true
            commonPrefix := begin_ + commonTail identities.elems fingerprint history.tail
              (tokens.elems.drop begin_) }

/-- Whether `assign` goes on from the prefix that a proof verified. -/
def accepts (history : KvMemPrefixHistory) (this : ℕ) (prompt : Vec (BitVec 32))
    (identities : Vec MultimodalTokenIdentity) (fingerprint : BitVec 64) (begin_ : ℕ)
    (proof : Match) : Bool :=
  proof.owner = this && proof.revision = history.revision && proof.prefixVerified &&
    proof.tokens = prompt.data && proof.tokenCount = prompt.elems.length &&
    proof.identities = identities.data && proof.identityCount = identities.elems.length &&
    proof.fingerprint = fingerprint && history.tailBegin ≤ begin_

/-- `assign`, of the history at address `this`. -/
def assign (history : KvMemPrefixHistory) (this : ℕ) (prompt : Vec (BitVec 32))
    (emitted : List (BitVec 32)) (committed : ℕ) (identities : Vec MultimodalTokenIdentity)
    (fingerprint : BitVec 64) (keepTokens : ℕ) (proof : Option Match) :
    Except String KvMemPrefixHistory :=
  if keepTokens = 0 ∨ prompt.elems.length + emitted.length < committed then
    .error "KVMem prefix capture exceeds committed request or has zero tail capacity"
  else
    let begin_ := committed - keepTokens
    let start : Sha256 × ℕ :=
      if proof.any (history.accepts this prompt identities fingerprint begin_) then
        (history.prefixState, history.tailBegin)
      else ({}, 0)
    let rows := ((prompt.elems ++ emitted).take committed).map (makeRow identities.elems fingerprint)
    let hashed := ((rows.take begin_).drop start.2).foldl hashRow start.1
    .ok {
      prefixState := hashed
      prefixDigest := hashed.finishHex
      tail := rows.drop begin_
      end_ := committed
      revision := history.revision + 1 }

/-- `clear`. -/
def clear (history : KvMemPrefixHistory) : KvMemPrefixHistory where
  prefixState := {}
  prefixDigest := ({} : Sha256).finishHex
  tail := []
  end_ := 0
  revision := history.revision + 1

/-- The constructor: `clear` on the initial members. -/
def new : KvMemPrefixHistory := clear ⟨{}, [], [], 0, 0⟩

end KvMemPrefixHistory

/-! ## Those who call it -/

/-- What was committed last: the tokens, and the visual identities of their
request. -/
structure Committed where
  tokens : List (BitVec 32) := []
  identities : List MultimodalTokenIdentity := []
  fingerprint : BitVec 64 := 0
  deriving DecidableEq

/-- The rows of the tokens. -/
def Committed.rows (c : Committed) : List Row := c.tokens.map (makeRow c.identities c.fingerprint)

/-- What identifies each of them. -/
def Committed.keys (c : Committed) : List (Option RowKey) :=
  c.tokens.map (rowKey c.identities c.fingerprint)

/-- A proof, and what the vectors held that it was made for. -/
structure Issued where
  proof : Match
  tokens : List (BitVec 32)
  identities : List MultimodalTokenIdentity
  deriving DecidableEq

/-- A history and those who call it: what they committed last, the proofs they
hold, and the byte streams that were digested. -/
structure Session where
  history : KvMemPrefixHistory
  committed : Committed
  issued : List Issued
  digested : List (List (BitVec 8))

/-- The calls. -/
inductive Call where
  | assign (prompt : Vec (BitVec 32)) (emitted : List (BitVec 32)) (committed : ℕ)
      (identities : Vec MultimodalTokenIdentity) (fingerprint : BitVec 64) (keepTokens : ℕ)
      (proof : Option Match)
  | clear
  | match_ (tokens : Vec (BitVec 32)) (identities : Vec MultimodalTokenIdentity)
      (fingerprint : BitVec 64)

namespace Session

/-- A proof the caller may hand to `assign`: it is of another history (or empty),
or it was issued here, and if `assign` consumes it, the vectors hold what they
held when it was made. -/
def Holds (s : Session) (this : ℕ) (prompt : Vec (BitVec 32))
    (identities : Vec MultimodalTokenIdentity) (fingerprint : BitVec 64) (begin_ : ℕ)
    (proof : Match) : Prop :=
  proof.owner ≠ this ∨ ∃ i ∈ s.issued, i.proof = proof ∧
    (s.history.accepts this prompt identities fingerprint begin_ proof →
      prompt.elems = i.tokens ∧ identities.elems = i.identities)

instance {s : Session} {this : ℕ} {prompt : Vec (BitVec 32)}
    {identities : Vec MultimodalTokenIdentity} {fingerprint : BitVec 64} {begin_ : ℕ}
    {proof : Match} : Decidable (s.Holds this prompt identities fingerprint begin_ proof) :=
  inferInstanceAs (Decidable (_ ∨ _))

/-- The stream that `match` digests, if it comes to that. -/
def matchStream (s : Session) (tokens : List (BitVec 32))
    (identities : List MultimodalTokenIdentity) (fingerprint : BitVec 64) :
    List (List (BitVec 8)) :=
  let rows := (tokens.take s.history.tailBegin).map (makeRow identities fingerprint)
  if s.history.tailBegin ≤ tokens.length ∧ ∀ row ∈ rows, row.valid then [rows.flatMap rowBytes]
  else []

/-- One call. -/
def step (this : ℕ) (s : Session) : Call → Option Session
  | .assign prompt emitted committed identities fingerprint keepTokens proof =>
      if ∀ m ∈ proof, s.Holds this prompt identities fingerprint (committed - keepTokens) m then
        match s.history.assign this prompt emitted committed identities fingerprint keepTokens
            proof with
        | .error _ => some s
        | .ok history =>
            let new : Committed :=
              ⟨(prompt.elems ++ emitted).take committed, identities.elems, fingerprint⟩
            some { s with
              history := history
              committed := new
              digested := (new.rows.take (committed - keepTokens)).flatMap rowBytes :: s.digested }
      else none
  | .clear => some { s with
      history := s.history.clear
      committed := {}
      digested := [] :: s.digested }
  | .match_ tokens identities fingerprint => some { s with
      issued := ⟨s.history.match_ this tokens identities fingerprint, tokens.elems,
        identities.elems⟩ :: s.issued
      digested := s.matchStream tokens.elems identities.elems fingerprint ++ s.digested }

end Session

/-- Any calls on the history at address `this`, from its construction on. -/
def machine (this : ℕ) : Machine Session Call where
  init s := s = ⟨.new, {}, [], [[]]⟩
  step := Session.step this

/-- SHA-256 tells the digested streams apart. -/
def CollisionFree (digested : List (List (BitVec 8))) : Prop :=
  ∀ x ∈ digested, ∀ y ∈ digested, sha256 x = sha256 y → x = y

instance (digested : List (List (BitVec 8))) : Decidable (CollisionFree digested) :=
  inferInstanceAs (Decidable (∀ x ∈ digested, ∀ y ∈ digested, sha256 x = sha256 y → x = y))

end Qw3.Prefix
