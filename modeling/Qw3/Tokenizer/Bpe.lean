import Mathlib.Algebra.Group.Int.Defs
import Mathlib.Data.Int.Notation
import Qw3.Tokenizer.Alphabet

/-!
# Byte pairs

The vocabulary of `QwenTokenizer`, its `bpe_piece`, and the way back in `decode_one` and
`decode`.

* `mergePairs` — the loop that joins the pair of the lowest rank.
* `Spells` — symbols that spell the parts of a piece in the alphabet; `spells_mergePairs`.
* `decode_bpePiece` — a piece is decoded to itself.
-/

namespace Qw3.Tokenizer

/-- A number as `int32_t`. -/
def int32 (n : ℕ) : ℤ := (BitVec.ofNat 32 n).toInt

/-- `INT32_MAX` -/
def int32Max : ℤ := 2 ^ 31 - 1

/-- `QwenTokenizer`, as the metadata gives it.  The ids of the tokens are `int32_t`. -/
structure QwenTokenizer where
  tokens : List Bytes
  /-- The lines of the merges; one without a pair has no rank. -/
  merges : List (Option (Bytes × Bytes))
  bosId : ℤ
  addBos : Bool
  tokens_lt : tokens.length < 2 ^ 31

namespace QwenTokenizer

variable (t : QwenTokenizer)

def vocabSize : ℤ := t.tokens.length

/-- `token_to_id_`: the first token of a text; an empty one has no id. -/
def tokenToId (token : Bytes) : Option ℤ :=
  if token = [] then none else (t.tokens.findIdx? (· = token)).map fun i : ℕ => (i : ℤ)

/-- `merge_rank_`: the first line of a pair. -/
def mergeRank (left right : Bytes) : Option ℤ :=
  (t.merges.findIdx? (· = some (left, right))).map int32

/-- The pass over the neighbours: the lowest rank so far, and where it stands first. -/
def bestPair : List Bytes → ℕ → ℤ × Option ℕ → ℤ × Option ℕ
  | left :: right :: symbols, i, best =>
      bestPair (right :: symbols) (i + 1)
        (match t.mergeRank left right with
          | some rank => if rank < best.1 then (rank, some i) else best
          | none => best)
  | _, _, best => best

/-- A symbol takes the next one in. -/
def joinAt : ℕ → List Bytes → List Bytes
  | 0, left :: right :: symbols => (left ++ right) :: symbols
  | i + 1, symbol :: symbols => symbol :: joinAt i symbols
  | _, symbols => symbols

/-- The loop over the merges; each turn leaves a symbol less. -/
def mergePairs : ℕ → List Bytes → List Bytes
  | 0, symbols => symbols
  | fuel + 1, symbols =>
      match (t.bestPair symbols 0 (int32Max, none)).2 with
      | none => symbols
      | some i => mergePairs fuel (joinAt i symbols)

/-- The ids of a symbol; one that is no token is looked up byte by byte. -/
def symbolIds (symbol : Bytes) : List ℤ :=
  match t.tokenToId symbol with
  | some id => [id]
  | none => symbol.filterMap fun c => t.tokenToId [c]

/-- `bpe_piece`. -/
def bpePiece (piece : Bytes) : List ℤ :=
  (t.mergePairs piece.length (piece.map byteToChar)).flatMap t.symbolIds

/-- `decode_one`. -/
def decodeOne (id : ℤ) : Bytes :=
  if id < 0 ∨ id ≥ t.vocabSize then []
  else
    let s := t.tokens.getD id.toNat []
    decodeChars s s.length 0

/-- `decode`. -/
def decode (ids : List ℤ) : Bytes := ids.flatMap t.decodeOne

/-- The vocabulary has every character of the alphabet and what each merge joins. -/
structure Complete : Prop where
  alphabet : ∀ b, byteToChar b ∈ t.tokens
  merged : ∀ left right, some (left, right) ∈ t.merges → left ++ right ∈ t.tokens

variable {t} {symbols : List Bytes} {parts : List Bytes} {piece token : Bytes} {id : ℤ} {i : ℕ}

/-! ## Tokens and their ids -/

theorem decode_append (x y : List ℤ) : t.decode (x ++ y) = t.decode x ++ t.decode y :=
  List.flatMap_append

theorem tokenToId_nonneg (h : t.tokenToId token = some id) : 0 ≤ id := by
  unfold tokenToId at h
  split_ifs at h
  obtain ⟨i, -, rfl⟩ := Option.map_eq_some_iff.mp h
  exact Int.natCast_nonneg i

/-- The id of a token stands for its characters. -/
theorem decodeOne_tokenToId (h : t.tokenToId token = some id) :
    t.decodeOne id = decodeChars token token.length 0 := by
  unfold tokenToId at h
  split_ifs at h
  obtain ⟨i, hi, rfl⟩ := Option.map_eq_some_iff.mp h
  obtain ⟨hlt, htoken, -⟩ := List.findIdx?_eq_some_iff_getElem.mp hi
  have hrange : ¬ ((i : ℤ) < 0 ∨ (i : ℤ) ≥ t.vocabSize) := by
    unfold vocabSize
    omega
  unfold decodeOne
  rw [if_neg hrange]
  dsimp only
  rw [Int.toNat_natCast, List.getD_eq_getElem _ _ hlt, of_decide_eq_true htoken]

theorem exists_tokenToId (hmem : token ∈ t.tokens) (hne : token ≠ []) : ∃ id, t.tokenToId token = some id := by
  unfold tokenToId
  rw [if_neg hne]
  have hsome : (t.tokens.findIdx? (· = token)).isSome := by
    rw [List.findIdx?_isSome, List.any_eq_true]
    exact ⟨token, hmem, decide_eq_true rfl⟩
  obtain ⟨i, hi⟩ := Option.isSome_iff_exists.mp hsome
  exact ⟨i, by rw [hi]; rfl⟩

/-! ## The merges -/

/-- The pair that is found stands in the symbols and is one of the merges. -/
theorem bestPair_spec {best : ℤ × Option ℕ} {base : ℕ} (h : (t.bestPair symbols base best).2 = some i) :
    best.2 = some i ∨ ∃ before left right after, symbols = before ++ left :: right :: after ∧
      i = base + before.length ∧ some (left, right) ∈ t.merges := by
  induction symbols generalizing base best with
  | nil => exact Or.inl h
  | cons left symbols ih =>
      cases symbols with
      | nil => exact Or.inl h
      | cons right symbols =>
          rw [bestPair] at h
          rcases ih h with hbest | ⟨before, left', right', after, hsymbols, hi, hmem⟩
          · cases hrank : t.mergeRank left right with
            | none =>
                rw [hrank] at hbest
                exact Or.inl hbest
            | some rank =>
                rw [hrank] at hbest
                dsimp only at hbest
                split_ifs at hbest
                · -- this pair is the best so far
                  obtain ⟨line, hline, -⟩ := Option.map_eq_some_iff.mp hrank
                  obtain ⟨hlt, hpair, -⟩ := List.findIdx?_eq_some_iff_getElem.mp hline
                  refine Or.inr ⟨[], left, right, symbols, rfl, (Option.some.inj hbest).symm, ?_⟩
                  rw [← of_decide_eq_true hpair]
                  exact List.getElem_mem hlt
                · exact Or.inl hbest
          · refine Or.inr ⟨left :: before, left', right', after, ?_, ?_, hmem⟩
            · rw [hsymbols, List.cons_append]
            · rw [hi, List.length_cons]
              omega

theorem joinAt_append (before : List Bytes) (left right : Bytes) (after : List Bytes) :
    joinAt before.length (before ++ left :: right :: after) = before ++ (left ++ right) :: after := by
  induction before with
  | nil => rfl
  | cons symbol before ih => exact congrArg (symbol :: ·) ih

/-- The symbols spell the parts of a piece, each a token. -/
structure Spells (t : QwenTokenizer) (piece : Bytes) (parts symbols : List Bytes) : Prop where
  spelt : symbols = parts.map bytesToChars
  flatten : parts.flatten = piece
  ne_nil : ∀ part ∈ parts, part ≠ []
  token : ∀ symbol ∈ symbols, symbol ∈ t.tokens

theorem spells_bytes (ht : t.Complete) (piece : Bytes) :
    Spells t piece (piece.map fun b => [b]) (piece.map byteToChar) where
  spelt := by
    rw [List.map_map]
    apply List.map_congr_left
    intro b _
    rw [Function.comp_apply, bytesToChars_cons, bytesToChars, List.flatMap_nil, List.append_nil]
  flatten := by
    induction piece with
    | nil => rfl
    | cons b piece ih => exact congrArg (b :: ·) ih
  ne_nil := by
    intro part hpart
    obtain ⟨b, -, rfl⟩ := List.mem_map.mp hpart
    exact List.cons_ne_nil _ _
  token := by
    intro symbol hsymbol
    obtain ⟨b, -, rfl⟩ := List.mem_map.mp hsymbol
    exact ht.alphabet b

/-- One merge. -/
theorem Spells.join (ht : t.Complete) {before after : List Bytes} {left right : Bytes}
    (h : Spells t piece parts (before ++ left :: right :: after))
    (hpair : some (left, right) ∈ t.merges) :
    ∃ parts', Spells t piece parts' (before ++ (left ++ right) :: after) := by
  obtain ⟨hspelt, hflatten, hne, htoken⟩ := h
  obtain ⟨parts₁, rest, rfl, hbefore, hrest⟩ := List.map_eq_append_iff.mp hspelt.symm
  obtain ⟨x, rest, rfl, hx, hrest⟩ := List.map_eq_cons_iff.mp hrest
  obtain ⟨y, parts₂, rfl, hy, hafter⟩ := List.map_eq_cons_iff.mp hrest
  refine ⟨parts₁ ++ (x ++ y) :: parts₂, ⟨?_, ?_, ?_, ?_⟩⟩
  · rw [List.map_append, List.map_cons, hbefore, hafter, bytesToChars_append, hx, hy]
  · rw [← hflatten]
    simp
  · intro part hpart
    rw [List.mem_append, List.mem_cons] at hpart
    rcases hpart with hpart | rfl | hpart
    · exact hne part (List.mem_append_left _ hpart)
    · exact List.append_ne_nil_of_left_ne_nil (hne x (by simp)) y
    · exact hne part (by simp [hpart])
  · intro symbol hsymbol
    rw [List.mem_append, List.mem_cons] at hsymbol
    rcases hsymbol with hsymbol | rfl | hsymbol
    · exact htoken symbol (List.mem_append_left _ hsymbol)
    · exact ht.merged left right hpair
    · exact htoken symbol (by simp [hsymbol])

/-- The loop over the merges keeps what the symbols spell. -/
theorem spells_mergePairs (ht : t.Complete) (fuel : ℕ) (h : Spells t piece parts symbols) :
    ∃ parts', Spells t piece parts' (t.mergePairs fuel symbols) := by
  induction fuel generalizing parts symbols with
  | zero => exact ⟨parts, h⟩
  | succ fuel ih =>
      unfold mergePairs
      cases hbest : (t.bestPair symbols 0 (int32Max, none)).2 with
      | none => exact ⟨parts, h⟩
      | some i =>
          rcases bestPair_spec hbest with hnone | ⟨before, left, right, after, rfl, rfl, hpair⟩
          · cases hnone
          · obtain ⟨parts', hjoined⟩ := h.join ht hpair
            dsimp only
            rw [Nat.zero_add, joinAt_append]
            exact ih hjoined

/-- A symbol that is a token is decoded to the part that it spells. -/
theorem decode_symbolIds {part : Bytes} (hne : part ≠ []) (hmem : bytesToChars part ∈ t.tokens) :
    t.decode (t.symbolIds (bytesToChars part)) = part := by
  obtain ⟨id, hid⟩ := exists_tokenToId hmem (bytesToChars_ne_nil hne)
  have hwalk := decodeChars_chars (length_le_bytesToChars part) []
  rw [List.nil_append, List.length_nil] at hwalk
  unfold symbolIds decode
  rw [hid]
  dsimp only
  rw [List.flatMap_singleton, decodeOne_tokenToId hid, hwalk]

theorem decode_flatMap_symbolIds (h : Spells t piece parts symbols) :
    t.decode (symbols.flatMap t.symbolIds) = piece := by
  obtain ⟨rfl, rfl, hne, htoken⟩ := h
  induction parts with
  | nil => rfl
  | cons part parts ih =>
      rw [List.forall_mem_cons] at hne
      rw [List.map_cons, List.forall_mem_cons] at htoken
      rw [List.map_cons, List.flatMap_cons, decode_append, decode_symbolIds hne.1 htoken.1,
        ih hne.2 htoken.2, List.flatten_cons]

/-- **A piece is decoded to itself**, whatever the merges are. -/
theorem decode_bpePiece (ht : t.Complete) (piece : Bytes) : t.decode (t.bpePiece piece) = piece := by
  obtain ⟨parts, h⟩ := spells_mergePairs ht piece.length (spells_bytes ht piece)
  exact decode_flatMap_symbolIds h

/-- A token that spells a piece is decoded to the piece. -/
theorem decodeOne_chars {pieces : List Bytes} (h : t.tokens = pieces.map bytesToChars) (hid : 0 ≤ id) :
    t.decodeOne id = pieces.getD id.toNat [] := by
  have hlength : t.tokens.length = pieces.length := by rw [h, List.length_map]
  unfold decodeOne vocabSize
  split_ifs with hrange
  · rw [List.getD_eq_default _ _ (by omega)]
  · have hlt : id.toNat < pieces.length := by omega
    have hwalk := decodeChars_chars (length_le_bytesToChars (pieces.getD id.toNat [])) []
    rw [List.nil_append, List.length_nil] at hwalk
    rw [h, List.getD_eq_getElem _ _ (by rwa [List.length_map]), List.getElem_map, ← List.getD_eq_getElem _ [] hlt]
    exact hwalk

/-- Without merges the symbols stay as they are. -/
theorem bestPair_of_no_merges (h : t.merges = []) (symbols : List Bytes) (i : ℕ) (best : ℤ × Option ℕ) :
    t.bestPair symbols i best = best := by
  induction symbols generalizing i with
  | nil => rfl
  | cons left symbols ih =>
      cases symbols with
      | nil => rfl
      | cons right symbols =>
          have hrank : t.mergeRank left right = none := by
            unfold mergeRank
            rw [h]
            rfl
          unfold bestPair
          rw [hrank]
          exact ih (i + 1)

/-- Without merges each byte is taken alone. -/
theorem bpePiece_of_no_merges (h : t.merges = []) (piece : Bytes) :
    t.bpePiece piece = piece.flatMap fun b => t.symbolIds (byteToChar b) := by
  have hmerged : t.mergePairs piece.length (piece.map byteToChar) = piece.map byteToChar := by
    cases piece.length with
    | zero => rfl
    | succ fuel =>
        unfold mergePairs
        rw [bestPair_of_no_merges h]
  unfold bpePiece
  rw [hmerged, List.flatMap_map]

theorem symbolIds_nonneg {symbol : Bytes} (h : id ∈ t.symbolIds symbol) : 0 ≤ id := by
  unfold symbolIds at h
  cases hid : t.tokenToId symbol with
  | some id' =>
      rw [hid] at h
      rw [List.mem_singleton.mp h]
      exact tokenToId_nonneg hid
  | none =>
      rw [hid] at h
      obtain ⟨c, -, hc⟩ := List.mem_filterMap.mp h
      exact tokenToId_nonneg hc

theorem bpePiece_nonneg (h : id ∈ t.bpePiece piece) : 0 ≤ id := by
  obtain ⟨symbol, -, hid⟩ := List.mem_flatMap.mp h
  exact symbolIds_nonneg hid

end QwenTokenizer

end Qw3.Tokenizer
