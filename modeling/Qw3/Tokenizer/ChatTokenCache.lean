import Mathlib.Algebra.BigOperators.Group.List.Basic
import Mathlib.Algebra.GroupWithZero.Nat
import Qw3.Lib.Machine
import Qw3.Tokenizer.Encode

/-!
# The cache of encoded chat messages

`ChatTokenCache` of `chat_token_cache.hpp`.  Threads share a cache; each encodes a text
message by message, and takes the lock once to look a message up and once to store it.

* `machine` — the cache and its threads, in any order of their turns.
* `Cache.Ok` — what holds of the cache between two turns.
* `encode_append` — where a message begins a text can be cut.
* `chatTokenCache` — each call returns what the tokenizer returns, and the bytes are
  accounted for.
-/

namespace Qw3.Tokenizer

open Search

/-- `boundary_` -/
def boundary : Bytes := bytes "<|im_start|>"

/-- `Entry` -/
structure Entry where
  text : Bytes
  tokens : List ℤ
  bytes : ℕ
deriving DecidableEq

/-- The shared state: the list with a name for each node, the most recently used first, and
the index into it. -/
structure Cache where
  lru : List (ℕ × Entry)
  index : Bytes → Option ℕ
  bytes : ℕ
  nextNode : ℕ

namespace Cache

def empty : Cache := ⟨[], fun _ => none, 0, 0⟩

/-- `cost` -/
def cost (text : Bytes) (tokens : List ℤ) : ℕ := text.length * 2 + tokens.length * 4 + 256

/-- A node of the list. -/
def entry (c : Cache) (node : ℕ) : Option (ℕ × Entry) := c.lru.find? fun e => e.1 = node

/-- `splice`: a node is moved to the front. -/
def touch (c : Cache) (e : ℕ × Entry) : Cache := { c with lru := e :: c.lru.erase e }

/-- The loop that makes room: entries leave at the back. -/
def evict (room : ℕ) : ℕ → Cache → Cache
  | 0, c => c
  | fuel + 1, c =>
      match c.lru.getLast? with
      | none => c
      | some e =>
          if c.bytes > room then
            evict room fuel { c with
              lru := c.lru.dropLast
              index := Function.update c.index e.2.text none
              bytes := c.bytes - e.2.bytes }
          else c

/-- A new entry at the front. -/
def push (c : Cache) (text : Bytes) (tokens : List ℤ) : Cache where
  lru := (c.nextNode, ⟨text, tokens, cost text tokens⟩) :: c.lru
  index := Function.update c.index text (some c.nextNode)
  bytes := c.bytes + cost text tokens
  nextNode := c.nextNode + 1

/-- The second part of `append`. -/
def store (limit : ℕ) (c : Cache) (text : Bytes) (tokens : List ℤ) : Cache :=
  if cost text tokens > limit then c
  else if (c.index text).isSome then c
  else (evict (limit - cost text tokens) c.lru.length c).push text tokens

end Cache

/-- Where a call is. -/
inductive Phase
  /-- At the head of the loop, with the text that is left. -/
  | appending (rest : Bytes) (result : List ℤ)
  /-- Between the locks, after a message was not found. -/
  | missed (piece rest : Bytes) (result : List ℤ)

/-- A thread: what it encodes, or what it returned last. -/
inductive Thread
  | idle
  | running (text : Bytes) (phase : Phase)
  | returned (text : Bytes) (result : Except String (List ℤ))

/-- The text that a thread encodes. -/
def Thread.text : Thread → Bytes
  | .idle => []
  | .running text _ => text
  | .returned text _ => text

/-- How many turns a thread may still need. -/
def Thread.turns : Thread → ℕ
  | .running _ (.appending rest _) => 2 * rest.length + 1
  | .running _ (.missed _ rest _) => 2 * rest.length + 2
  | _ => 0

structure Shared where
  cache : Cache
  threads : ℕ → Thread

inductive Action
  /-- A thread calls `encode`. -/
  | call (i : ℕ) (text : Bytes)
  /-- A thread goes on, to its next lock. -/
  | turn (i : ℕ)

/-- `ChatTokenCache`, what does not change: its tokenizer and its limit. -/
structure ChatTokenCache where
  tokenizer : QwenTokenizer
  nfc : Nfc
  classes : UnicodeClasses
  limit : ℕ

namespace ChatTokenCache

variable (m : ChatTokenCache)

/-- `tokenizer_.encode` -/
def tokenizerEncode (text : Bytes) : Except String (List ℤ) :=
  m.tokenizer.encode m.nfc m.classes text false

/-- `token_id` -/
def tokenId (token : Bytes) : ℤ := (m.tokenizer.tokenToId token).getD (-1)

/-- `enabled_`: the marker is one token. -/
def enabled : Bool :=
  !m.tokenizer.addBos &&
    match m.tokenizerEncode boundary with
    | .ok [marker] => marker = m.tokenId boundary
    | _ => false

/-- The end of the next message: where another one begins. -/
def pieceEnd (rest : Bytes) : ℕ :=
  match find boundary (rest.drop 1) with
  | some i => i + 1
  | none => rest.length

/-- A call begins. -/
def begin (text : Bytes) : Thread :=
  if !m.enabled ∨ m.limit = 0 ∨ text.length < 1024 then .returned text (m.tokenizerEncode text)
  else .running text (.appending text [])

/-- What a thread and the cache are after the thread's next turn; none where it has
none. -/
def turn (c : Cache) : Thread → Option (Cache × Thread)
  | .running text (.appending rest result) =>
      if rest = [] then some (c, .returned text (.ok result))
      else
        let piece := rest.take (pieceEnd rest)
        match c.index piece with
        | none => some (c, .running text (.missed piece (rest.drop (pieceEnd rest)) result))
        | some node =>
            (c.entry node).map fun e =>
              (c.touch e, .running text (.appending (rest.drop (pieceEnd rest)) (result ++ e.2.tokens)))
  | .running text (.missed piece rest result) =>
      match m.tokenizerEncode piece with
      | .error message => some (c, .returned text (.error message))
      | .ok tokens =>
          some (c.store m.limit piece tokens, .running text (.appending rest (result ++ tokens)))
  | _ => none

/-- The cache and its threads. -/
def machine : Machine Shared Action where
  init s := s.cache = .empty ∧ ∀ i, s.threads i = .idle
  step s
    | .call i text =>
        match s.threads i with
        | .running _ _ => none
        | _ => some { s with threads := Function.update s.threads i (m.begin text) }
    | .turn i =>
        (m.turn s.cache (s.threads i)).map fun after =>
          ⟨after.1, Function.update s.threads i after.2⟩

end ChatTokenCache

/-! ## The cache -/

namespace Cache

/-- The list holds what the tokenizer returns, the index leads to it, and the bytes are
those of its entries. -/
structure Ok (encode : Bytes → Except String (List ℤ)) (limit : ℕ) (c : Cache) : Prop where
  encoded : ∀ e ∈ c.lru, encode e.2.text = .ok e.2.tokens
  costs : ∀ e ∈ c.lru, e.2.bytes = cost e.2.text e.2.tokens
  nodes : (c.lru.map Prod.fst).Nodup
  fresh : ∀ e ∈ c.lru, e.1 < c.nextNode
  index : ∀ text node, c.index text = some node ↔ ∃ e ∈ c.lru, e.1 = node ∧ e.2.text = text
  bytes : c.bytes = (c.lru.map fun e => e.2.bytes).sum
  limit : c.bytes ≤ limit

variable {encode : Bytes → Except String (List ℤ)} {limit fuel node : ℕ} {c : Cache} {e : ℕ × Entry}
  {text : Bytes} {tokens : List ℤ}

theorem ok_empty : Ok encode limit empty where
  encoded _ h := absurd h List.not_mem_nil
  costs _ h := absurd h List.not_mem_nil
  nodes := List.nodup_nil
  fresh _ h := absurd h List.not_mem_nil
  index := by
    intro text node
    constructor
    · intro h
      cases h
    · rintro ⟨e, he, -⟩
      exact absurd he List.not_mem_nil
  bytes := rfl
  limit := Nat.zero_le _

/-- The index leads to an entry of its text. -/
theorem Ok.entry (h : c.Ok encode limit) (hindex : c.index text = some node) :
    ∃ e ∈ c.lru, c.entry node = some e ∧ e.2.text = text := by
  obtain ⟨e, he, rfl, rfl⟩ := (h.index text node).mp hindex
  refine ⟨e, he, ?_, rfl⟩
  cases hfind : c.entry e.1 with
  | none => exact absurd (decide_eq_true rfl) (List.find?_eq_none.mp hfind e he)
  | some e' =>
      have heq := List.find?_some hfind
      rw [decide_eq_true_eq] at heq
      rw [List.inj_on_of_nodup_map h.nodes (List.mem_of_find?_eq_some hfind) he heq]

theorem Ok.touch (h : c.Ok encode limit) (he : e ∈ c.lru) : (c.touch e).Ok encode limit := by
  have hperm : (c.touch e).lru.Perm c.lru := (List.perm_cons_erase he).symm
  have hmem : ∀ e', e' ∈ (c.touch e).lru ↔ e' ∈ c.lru := fun e' => hperm.mem_iff
  constructor
  · intro e' he'
    exact h.encoded e' ((hmem e').mp he')
  · intro e' he'
    exact h.costs e' ((hmem e').mp he')
  · exact (hperm.map Prod.fst).nodup_iff.mpr h.nodes
  · intro e' he'
    exact h.fresh e' ((hmem e').mp he')
  · intro text node
    refine (h.index text node).trans ?_
    simp only [hmem]
  · exact h.bytes.trans (hperm.map _).sum_eq.symm
  · exact h.limit

/-- The entry at the back leaves. -/
theorem Ok.pop {before : List (ℕ × Entry)} (h : c.Ok encode limit) (hlru : c.lru = before ++ [e]) :
    Ok encode limit { c with
      lru := before
      index := Function.update c.index e.2.text none
      bytes := c.bytes - e.2.bytes } := by
  have hmem : ∀ e' ∈ before, e' ∈ c.lru := by
    intro e' he'
    rw [hlru]
    exact List.mem_append_left _ he'
  have hlast : e ∈ c.lru := by
    rw [hlru]
    exact List.mem_append_right _ (List.mem_singleton.mpr rfl)
  have hnodes := h.nodes
  rw [hlru, List.map_append, List.nodup_append] at hnodes
  have hbytes := h.bytes
  rw [hlru, List.map_append, List.sum_append, List.map_singleton, List.sum_singleton] at hbytes
  -- the entry's text has left with it
  have htext : ∀ e' ∈ before, e'.2.text ≠ e.2.text := by
    intro e' he' heq
    have hindex := (h.index e.2.text e'.1).mpr ⟨e', hmem e' he', rfl, heq⟩
    rw [(h.index e.2.text e.1).mpr ⟨e, hlast, rfl, rfl⟩] at hindex
    exact hnodes.2.2 e'.1 (List.mem_map_of_mem he') e.1 (List.mem_singleton.mpr rfl)
      (Option.some.inj hindex).symm
  constructor
  · intro e' he'
    exact h.encoded e' (hmem e' he')
  · intro e' he'
    exact h.costs e' (hmem e' he')
  · exact hnodes.1
  · intro e' he'
    exact h.fresh e' (hmem e' he')
  · intro text node
    dsimp only
    by_cases hother : text = e.2.text
    · rw [hother, Function.update_self]
      constructor
      · intro hnone
        cases hnone
      · rintro ⟨e', he', -, heq⟩
        exact absurd heq (htext e' he')
    · rw [Function.update_of_ne hother, h.index, hlru]
      constructor
      · rintro ⟨e', he', hnode, heq⟩
        rcases List.mem_append.mp he' with he' | he'
        · exact ⟨e', he', hnode, heq⟩
        · rw [List.mem_singleton.mp he'] at heq
          exact absurd heq.symm hother
      · rintro ⟨e', he', h'⟩
        exact ⟨e', List.mem_append_left _ he', h'⟩
  · dsimp only
    omega
  · dsimp only
    exact (Nat.sub_le _ _).trans h.limit

/-- The loop makes room. -/
theorem Ok.evict (room : ℕ) (h : c.Ok encode limit) (hfuel : c.lru.length ≤ fuel) (hindex : c.index text = none) :
    (evict room fuel c).Ok encode limit ∧ (Cache.evict room fuel c).bytes ≤ room ∧
      (Cache.evict room fuel c).index text = none := by
  induction fuel generalizing c with
  | zero =>
      have hbytes := h.bytes
      rw [List.length_eq_zero_iff.mp (Nat.le_zero.mp hfuel)] at hbytes
      refine ⟨h, ?_, hindex⟩
      unfold Cache.evict
      rw [hbytes]
      exact Nat.zero_le _
  | succ fuel ih =>
      unfold Cache.evict
      cases hlast : c.lru.getLast? with
      | none =>
          have hbytes := h.bytes
          rw [List.getLast?_eq_none_iff.mp hlast] at hbytes
          refine ⟨h, ?_, hindex⟩
          dsimp only
          rw [hbytes]
          exact Nat.zero_le _
      | some e =>
          obtain ⟨before, hlru⟩ := List.getLast?_eq_some_iff.mp hlast
          dsimp only
          split_ifs with hroom
          · have hdrop : c.lru.dropLast = before := by
              rw [hlru, List.dropLast_concat]
            rw [hdrop]
            refine ih (h.pop hlru) ?_ ?_
            · rw [hlru, List.length_append, List.length_singleton] at hfuel
              exact Nat.le_of_succ_le_succ hfuel
            · dsimp only
              by_cases htext : text = e.2.text
              · rw [htext, Function.update_self]
              · rw [Function.update_of_ne htext, hindex]
          · exact ⟨h, not_lt.mp hroom, hindex⟩

theorem Ok.push (h : c.Ok encode limit) (hindex : c.index text = none)
    (hencode : encode text = .ok tokens) (hroom : c.bytes + cost text tokens ≤ limit) :
    (c.push text tokens).Ok encode limit := by
  have hnew : ∀ e ∈ c.lru, e.2.text ≠ text := by
    intro e he heq
    rw [(h.index text e.1).mpr ⟨e, he, rfl, heq⟩] at hindex
    cases hindex
  constructor
  · exact List.forall_mem_cons.mpr ⟨hencode, h.encoded⟩
  · exact List.forall_mem_cons.mpr ⟨rfl, h.costs⟩
  · unfold Cache.push
    rw [List.map_cons, List.nodup_cons]
    refine ⟨?_, h.nodes⟩
    intro hmem
    obtain ⟨e, he, heq⟩ := List.mem_map.mp hmem
    exact absurd (h.fresh e he) (by rw [heq]; exact lt_irrefl _)
  · refine List.forall_mem_cons.mpr ⟨Nat.lt_succ_self _, ?_⟩
    intro e he
    exact (h.fresh e he).trans (Nat.lt_succ_self _)
  · intro text' node
    unfold Cache.push
    dsimp only
    by_cases hsame : text' = text
    · rw [hsame, Function.update_self]
      constructor
      · intro hnode
        exact ⟨_, List.mem_cons_self, Option.some.inj hnode, rfl⟩
      · rintro ⟨e, he, hnode, heq⟩
        rcases List.mem_cons.mp he with rfl | he
        · rw [← hnode]
        · exact absurd heq (hnew e he)
    · rw [Function.update_of_ne hsame, h.index]
      constructor
      · rintro ⟨e, he, h'⟩
        exact ⟨e, List.mem_cons_of_mem _ he, h'⟩
      · rintro ⟨e, he, hnode, heq⟩
        rcases List.mem_cons.mp he with rfl | he
        · exact absurd heq.symm hsame
        · exact ⟨e, he, hnode, heq⟩
  · unfold Cache.push
    dsimp only
    rw [List.map_cons, List.sum_cons, h.bytes, Nat.add_comm]
  · exact hroom

theorem Ok.store (h : c.Ok encode limit) (hencode : encode text = .ok tokens) :
    (c.store limit text tokens).Ok encode limit := by
  unfold Cache.store
  split_ifs with hcost hindex
  · exact h
  · exact h
  · rw [Bool.not_eq_true, Option.isSome_eq_false_iff, Option.isNone_iff_eq_none] at hindex
    obtain ⟨hok, hroom, hnone⟩ := Ok.evict (limit - cost text tokens) h le_rfl hindex
    exact hok.push hnone hencode (by omega)

end Cache

/-! ## Messages -/

section Messages

variable {t : QwenTokenizer} {nfc : Nfc} {u : UnicodeClasses} {id : ℤ} {b : Bytes}

theorem boundary_mem_candidates : boundary ∈ candidates := List.mem_cons_self

/-- **Where a message begins a text can be cut.** -/
theorem encode_append (hw : t.Special boundary id) (hbos : t.bos false = [])
    (hb : boundary <+: b ∨ b = []) (a : Bytes) :
    t.encode nfc u (a ++ b) false = (t.encode nfc u a false).bind fun x =>
      (t.encode nfc u b false).map fun y => x ++ y := by
  have hsegments : t.segments (a ++ b) = t.segments a ++ t.segments b := by
    rcases hb with hb | rfl
    · exact QwenTokenizer.segments_append hb hw a
    · rw [List.append_nil, QwenTokenizer.segments_nil, List.append_nil]
  unfold QwenTokenizer.encode
  rw [hbos, hsegments, List.mapM_append]
  cases (t.segments a).mapM (t.encodeSegment nfc u) with
  | error message => rfl
  | ok x =>
      cases (t.segments b).mapM (t.encodeSegment nfc u) with
      | error message => rfl
      | ok y => exact congrArg Except.ok List.flatten_append

theorem encodeSegment_nonneg {seg : Segment} {ids : List ℤ}
    (hspecial : ∀ id, seg.specialId = some id → t.Special seg.text id)
    (h : t.encodeSegment nfc u seg = .ok ids) : ∀ id ∈ ids, 0 ≤ id := by
  unfold QwenTokenizer.encodeSegment at h
  cases hid : seg.specialId with
  | some id =>
      rw [hid] at h
      rw [← Except.ok.inj h]
      intro id' hid'
      rw [List.mem_singleton.mp hid']
      exact QwenTokenizer.tokenToId_nonneg (hspecial id hid).2
  | none =>
      rw [hid] at h
      dsimp only at h
      unfold QwenTokenizer.encodeRegularChunk at h
      cases hnormalized : (if ∃ c ∈ seg.text, 0x80 ≤ c then qwenNormalizeUtf8 nfc seg.text else .ok seg.text) with
      | error message =>
          rw [hnormalized] at h
          cases h
      | ok normalized =>
          rw [hnormalized] at h
          rw [← Except.ok.inj h]
          intro id hid
          obtain ⟨piece, -, hpiece⟩ := List.mem_flatMap.mp hid
          exact QwenTokenizer.bpePiece_nonneg hpiece

/-- Without the token at the beginning no id is negative. -/
theorem encode_nonneg (hbos : t.bos false = []) {text : Bytes} {ids : List ℤ}
    (h : t.encode nfc u text false = .ok ids) : ∀ id ∈ ids, 0 ≤ id := by
  unfold QwenTokenizer.encode at h
  rw [hbos] at h
  cases hencoded : (t.segments text).mapM (t.encodeSegment nfc u) with
  | error message =>
      rw [hencoded] at h
      cases h
  | ok encoded =>
      rw [hencoded] at h
      rw [← Except.ok.inj h]
      intro id hid
      obtain ⟨slot, hslot, hid⟩ := List.mem_flatten.mp hid
      have hall := Except.mapM_eq_ok.mp hencoded
      obtain ⟨hlength, hget⟩ := List.forall₂_iff_get.mp hall
      obtain ⟨i, hi, rfl⟩ := List.mem_iff_getElem.mp hslot
      have hsegments := (QwenTokenizer.splits_segments t text).special
      exact encodeSegment_nonneg (hsegments _ (List.getElem_mem _)) (hget i (hlength ▸ hi) hi) id hid

end Messages

namespace ChatTokenCache

variable {m : ChatTokenCache} {rest text : Bytes} {c c' : Cache} {thread thread' : Thread} {s : Shared}

theorem enabled_spec (h : m.enabled = true) :
    m.tokenizer.bos false = [] ∧ ∃ id, m.tokenizer.Special boundary id := by
  unfold enabled at h
  rw [Bool.and_eq_true, Bool.not_eq_true'] at h
  obtain ⟨haddBos, hmarker⟩ := h
  have hbos : m.tokenizer.bos false = [] := by
    unfold QwenTokenizer.bos
    rw [haddBos]
    exact if_neg fun h => absurd h.1 (by decide)
  refine ⟨hbos, ?_⟩
  cases hid : m.tokenizer.tokenToId boundary with
  | some id => exact ⟨id, boundary_mem_candidates, hid⟩
  | none =>
      -- the id of a missing token is negative
      split at hmarker
      next marker hencode =>
        have hnonneg := encode_nonneg hbos hencode marker (List.mem_singleton.mpr rfl)
        rw [decide_eq_true_eq] at hmarker
        unfold tokenId at hmarker
        rw [hid, Option.getD_none] at hmarker
        omega
      next => cases hmarker

theorem pieceEnd_spec (hrest : rest ≠ []) : 0 < pieceEnd rest ∧
    (boundary <+: rest.drop (pieceEnd rest) ∨ rest.drop (pieceEnd rest) = []) := by
  unfold pieceEnd
  cases hfind : find boundary (rest.drop 1) with
  | none => exact ⟨List.length_pos_iff.mpr hrest, Or.inr (List.drop_length)⟩
  | some i =>
      obtain ⟨-, hat, -⟩ := find_eq_some_iff.mp hfind
      refine ⟨Nat.succ_pos i, Or.inl ?_⟩
      unfold OccursAt at hat
      rwa [List.drop_drop, Nat.add_comm 1] at hat

/-- A message and the text behind it. -/
theorem tokenizerEncode_append (h : m.enabled = true) (hrest : boundary <+: rest ∨ rest = []) (piece : Bytes) :
    m.tokenizerEncode (piece ++ rest) = (m.tokenizerEncode piece).bind fun x =>
      (m.tokenizerEncode rest).map fun y => x ++ y := by
  obtain ⟨hbos, id, hid⟩ := enabled_spec h
  exact encode_append hid hbos hrest piece

/-- What a call has appended and what is left make up what the tokenizer returns. -/
def ThreadOk (m : ChatTokenCache) : Thread → Prop
  | .idle => True
  | .running text (.appending rest result) =>
      m.enabled = true ∧ m.tokenizerEncode text = (m.tokenizerEncode rest).map (result ++ ·)
  | .running text (.missed piece rest result) =>
      m.enabled = true ∧ (boundary <+: rest ∨ rest = []) ∧
        m.tokenizerEncode text = (m.tokenizerEncode (piece ++ rest)).map (result ++ ·)
  | .returned text result => result = m.tokenizerEncode text

theorem threadOk_begin (m : ChatTokenCache) (text : Bytes) : m.ThreadOk (m.begin text) := by
  unfold begin
  split_ifs with h
  · rfl
  · rw [not_or, Bool.not_eq_true', Bool.not_eq_false] at h
    refine ⟨h.1, ?_⟩
    cases m.tokenizerEncode text with
    | error message => rfl
    | ok ids => rfl

/-- The messages that have been appended, and one more. -/
theorem tokenizerEncode_step {piece : Bytes} {result tokens : List ℤ} (h : m.enabled = true)
    (hrest : boundary <+: rest ∨ rest = []) (hpiece : m.tokenizerEncode piece = .ok tokens)
    (htext : m.tokenizerEncode text = (m.tokenizerEncode (piece ++ rest)).map (result ++ ·)) :
    m.tokenizerEncode text = (m.tokenizerEncode rest).map ((result ++ tokens) ++ ·) := by
  rw [htext, tokenizerEncode_append h hrest, hpiece]
  cases m.tokenizerEncode rest with
  | error message => rfl
  | ok ids => exact congrArg Except.ok (List.append_assoc _ _ _).symm

/-! The turns, one by one. -/

variable {piece : Bytes} {result tokens : List ℤ}

theorem turn_nil : m.turn c (.running text (.appending [] result)) = some (c, .returned text (.ok result)) := rfl

theorem turn_miss (hrest : rest ≠ []) (hindex : c.index (rest.take (pieceEnd rest)) = none) :
    m.turn c (.running text (.appending rest result)) =
      some (c, .running text (.missed (rest.take (pieceEnd rest)) (rest.drop (pieceEnd rest)) result)) := by
  refine (if_neg hrest).trans ?_
  rw [hindex]

theorem turn_hit {node : ℕ} {e : ℕ × Entry} (hrest : rest ≠ [])
    (hindex : c.index (rest.take (pieceEnd rest)) = some node) (hentry : c.entry node = some e) :
    m.turn c (.running text (.appending rest result)) =
      some (c.touch e, .running text (.appending (rest.drop (pieceEnd rest)) (result ++ e.2.tokens))) := by
  refine (if_neg hrest).trans ?_
  rw [hindex]
  dsimp only
  rw [hentry, Option.map_some]

theorem turn_error {message : String} (hpiece : m.tokenizerEncode piece = .error message) :
    m.turn c (.running text (.missed piece rest result)) = some (c, .returned text (.error message)) := by
  delta turn
  dsimp only
  rw [hpiece]

theorem turn_store (hpiece : m.tokenizerEncode piece = .ok tokens) :
    m.turn c (.running text (.missed piece rest result)) =
      some (c.store m.limit piece tokens, .running text (.appending rest (result ++ tokens))) := by
  delta turn
  dsimp only
  rw [hpiece]

/-- The empty text has no tokens. -/
theorem tokenizerEncode_nil (h : m.enabled = true) : m.tokenizerEncode [] = .ok [] := by
  obtain ⟨hbos, -⟩ := enabled_spec h
  unfold tokenizerEncode QwenTokenizer.encode
  rw [hbos]
  rfl

/-! The steps of the machine. -/

theorem step_call {i : ℕ} (hfree : ∀ text phase, s.threads i ≠ .running text phase) :
    m.machine.step s (.call i text) = some { s with threads := Function.update s.threads i (m.begin text) } := by
  unfold machine
  dsimp only
  split
  next text phase hrunning => exact absurd hrunning (hfree text phase)
  next => rfl

theorem step_turn {i : ℕ} {after : Cache × Thread} (h : m.turn s.cache (s.threads i) = some after) :
    m.machine.step s (.turn i) = some ⟨after.1, Function.update s.threads i after.2⟩ := by
  unfold machine
  dsimp only
  rw [h, Option.map_some]

theorem called_reachable {threads : ℕ → Thread} (h : m.machine.Reachable ⟨c, threads⟩) (i : ℕ) (text : Bytes)
    (hfree : ∀ text phase, threads i ≠ .running text phase) :
    m.machine.Reachable ⟨c, Function.update threads i (m.begin text)⟩ := by
  refine h.run (show m.machine.run ⟨c, threads⟩ [.call i text] = _ from ?_)
  rw [Machine.run_cons, step_call hfree]
  rfl

theorem turned_reachable {threads : ℕ → Thread} {i : ℕ} {c' : Cache} {thread' : Thread}
    (h : m.machine.Reachable ⟨c, Function.update threads i thread⟩) (hturn : m.turn c thread = some (c', thread')) :
    m.machine.Reachable ⟨c', Function.update threads i thread'⟩ := by
  refine h.run (show m.machine.run ⟨c, Function.update threads i thread⟩ [.turn i] = _ from ?_)
  have hstep := step_turn (s := ⟨c, Function.update threads i thread⟩) (i := i)
    ((congrArg (m.turn c) (Function.update_self ..)).trans hturn)
  rw [Machine.run_cons, hstep, Function.update_idem]
  rfl

/-- What a turn leaves behind. -/
structure Turned (m : ChatTokenCache) (thread : Thread) (after : Cache × Thread) : Prop where
  cache : after.1.Ok m.tokenizerEncode m.limit
  kept : m.ThreadOk after.2
  goes_on : after.2 ≠ .idle
  text : after.2.text = thread.text
  fewer : after.2.turns < thread.turns

/-- **One turn**: a call that runs goes on, and what holds of it and of the cache stays. -/
theorem turn_spec (hc : c.Ok m.tokenizerEncode m.limit) (hthread : m.ThreadOk thread)
    (hrunning : 0 < thread.turns) : ∃ after, m.turn c thread = some after ∧ m.Turned thread after := by
  match thread, hthread with
  | .idle, _ => exact absurd hrunning (lt_irrefl 0)
  | .returned _ _, _ => exact absurd hrunning (lt_irrefl 0)
  | .running text (.appending [] result), ⟨henabled, htext⟩ =>
      refine ⟨_, turn_nil, hc, ?_, Thread.noConfusion, rfl, hrunning⟩
      rw [tokenizerEncode_nil henabled] at htext
      exact ((congrArg Except.ok (List.append_nil result)).symm.trans htext.symm)
  | .running text (.appending (b :: bs) result), ⟨henabled, htext⟩ =>
      have hrest : b :: bs ≠ [] := List.cons_ne_nil b bs
      generalize b :: bs = rest at hrest htext
      obtain ⟨hpos, hcut⟩ := pieceEnd_spec hrest
      have hlength : (rest.drop (pieceEnd rest)).length < rest.length := by
        have hne := List.length_pos_iff.mpr hrest
        rw [List.length_drop]
        omega
      have hparts := htext
      rw [← List.take_append_drop (pieceEnd rest) rest] at hparts
      cases hindex : c.index (rest.take (pieceEnd rest)) with
      | none =>
          refine ⟨_, turn_miss hrest hindex, hc, ⟨henabled, hcut, hparts⟩, Thread.noConfusion, rfl, ?_⟩
          change 2 * (rest.drop (pieceEnd rest)).length + 2 < 2 * rest.length + 1
          omega
      | some node =>
          obtain ⟨e, he, hentry, hpiece⟩ := hc.entry hindex
          have hencoded := hc.encoded e he
          rw [hpiece] at hencoded
          refine ⟨_, turn_hit hrest hindex hentry, hc.touch he,
            ⟨henabled, tokenizerEncode_step henabled hcut hencoded hparts⟩, Thread.noConfusion, rfl, ?_⟩
          change 2 * (rest.drop (pieceEnd rest)).length + 1 < 2 * rest.length + 1
          omega
  | .running text (.missed piece rest result), ⟨henabled, hcut, htext⟩ =>
      cases hpiece : m.tokenizerEncode piece with
      | error message =>
          refine ⟨_, turn_error hpiece, hc, ?_, Thread.noConfusion, rfl, hrunning⟩
          rw [tokenizerEncode_append henabled hcut, hpiece] at htext
          exact htext.symm
      | ok tokens =>
          exact ⟨_, turn_store hpiece, hc.store hpiece,
            ⟨henabled, tokenizerEncode_step henabled hcut hpiece htext⟩, Thread.noConfusion, rfl,
            Nat.lt_succ_self _⟩

/-- What holds in every state. -/
def Inv (m : ChatTokenCache) (s : Shared) : Prop :=
  s.cache.Ok m.tokenizerEncode m.limit ∧ ∀ i, m.ThreadOk (s.threads i)

theorem threadOk_update {i : ℕ} (h : ∀ j, m.ThreadOk (s.threads j)) (hthread : m.ThreadOk thread) (j : ℕ) :
    m.ThreadOk (Function.update s.threads i thread j) := by
  by_cases hj : j = i
  · rwa [hj, Function.update_self]
  · rw [Function.update_of_ne hj]
    exact h j

theorem turns_pos {after : Cache × Thread} (h : m.turn c thread = some after) : 0 < thread.turns := by
  match thread with
  | .idle => cases h
  | .returned _ _ => cases h
  | .running _ (.appending _ _) => exact Nat.succ_pos _
  | .running _ (.missed _ _ _) => exact Nat.succ_pos _

theorem invariant_inv (m : ChatTokenCache) : m.machine.Invariant m.Inv where
  init := by
    rintro s ⟨hcache, hthreads⟩
    refine ⟨?_, fun i => ?_⟩
    · rw [hcache]
      exact Cache.ok_empty
    · rw [hthreads i]
      exact trivial
  step := by
    rintro s a s' ⟨hc, hthreads⟩ h
    cases a with
    | call i text =>
        have hcalled : s' = { s with threads := Function.update s.threads i (m.begin text) } := by
          unfold machine at h
          dsimp only at h
          split at h
          · cases h
          · exact (Option.some.inj h).symm
        rw [hcalled]
        exact ⟨hc, threadOk_update hthreads (threadOk_begin m text)⟩
    | turn i =>
        obtain ⟨after, hturn, rfl⟩ := Option.map_eq_some_iff.mp h
        obtain ⟨after', hturn', hturned⟩ := turn_spec hc (hthreads i) (turns_pos hturn)
        rw [hturn] at hturn'
        rw [Option.some.inj hturn']
        exact ⟨hturned.cache, threadOk_update hthreads hturned.kept⟩

/-- A call returns what the tokenizer returns, however many turns it has. -/
theorem exists_returned {i k : ℕ} (hs : m.Inv s) (hthread : s.threads i ≠ .idle)
    (hk : (s.threads i).turns ≤ k) :
    ∃ n s', n ≤ k ∧ m.machine.run s (List.replicate n (.turn i)) = some s' ∧
      s'.threads i = .returned (s.threads i).text (m.tokenizerEncode (s.threads i).text) := by
  induction k generalizing s with
  | zero =>
      refine ⟨0, s, le_rfl, rfl, ?_⟩
      have hok := hs.2 i
      match hcase : s.threads i with
      | .idle => exact absurd hcase hthread
      | .running _ (.appending _ _) =>
          rw [hcase] at hk
          exact absurd hk (Nat.not_succ_le_zero _)
      | .running _ (.missed _ _ _) =>
          rw [hcase] at hk
          exact absurd hk (Nat.not_succ_le_zero _)
      | .returned text result =>
          rw [hcase] at hok
          rw [show result = m.tokenizerEncode text from hok]
          rfl
  | succ k ih =>
      by_cases hrunning : 0 < (s.threads i).turns
      · obtain ⟨after, hturn, hturned⟩ := turn_spec hs.1 (hs.2 i) hrunning
        have hstep := step_turn hturn
        have hafter : (Shared.mk after.1 (Function.update s.threads i after.2)).threads i = after.2 :=
          Function.update_self ..
        have hfewer := hturned.fewer
        obtain ⟨n, s', hn, hrun, hreturned⟩ := ih (m.invariant_inv.step _ _ _ hs hstep)
          (by rw [hafter]; exact hturned.goes_on) (by rw [hafter]; omega)
        rw [hafter, hturned.text] at hreturned
        refine ⟨n + 1, s', Nat.succ_le_succ hn, ?_, hreturned⟩
        rw [List.replicate_succ, Machine.run_cons, hstep]
        exact hrun
      · obtain ⟨n, s', hn, h⟩ := ih hs hthread (by omega)
        exact ⟨n, s', hn.trans (Nat.le_succ k), h⟩

theorem begin_spec (m : ChatTokenCache) (text : Bytes) :
    m.begin text ≠ .idle ∧ (m.begin text).text = text := by
  unfold begin
  split_ifs
  · exact ⟨Thread.noConfusion, rfl⟩
  · exact ⟨Thread.noConfusion, rfl⟩

/-- A call from any state. -/
theorem exists_called {i : ℕ} (hs : m.Inv s) (hfree : ∀ text phase, s.threads i ≠ .running text phase)
    (text : Bytes) : ∃ n s', m.machine.run s (.call i text :: List.replicate n (.turn i)) = some s' ∧
      s'.threads i = .returned text (m.tokenizerEncode text) := by
  have hstep : m.machine.step s (.call i text) =
      some { s with threads := Function.update s.threads i (m.begin text) } := step_call hfree
  have hcalled : (Shared.mk s.cache (Function.update s.threads i (m.begin text))).threads i = m.begin text :=
    Function.update_self ..
  obtain ⟨hne, htext⟩ := begin_spec m text
  obtain ⟨n, s', -, hrun, hreturned⟩ := exists_returned (m.invariant_inv.step _ _ _ hs hstep)
    (by rwa [hcalled]) le_rfl
  rw [hcalled, htext] at hreturned
  refine ⟨n, s', ?_, hreturned⟩
  rw [Machine.run_cons, hstep]
  exact hrun

/-- A cache that none of its callers notices, whatever the threads have done so far. -/
structure Transparent (m : ChatTokenCache) (s : Shared) : Prop where
  /-- The bytes are those of the entries. -/
  accounted : s.cache.bytes = (s.cache.lru.map fun e => Cache.cost e.2.text e.2.tokens).sum
  limited : s.cache.bytes ≤ m.limit
  /-- What a call returned is what the tokenizer returns. -/
  returned : ∀ i text result, s.threads i = .returned text result → result = m.tokenizerEncode text
  /-- A call that runs can go on to its end. -/
  finishes : ∀ i text phase, s.threads i = .running text phase →
    ∃ n s', m.machine.run s (List.replicate n (.turn i)) = some s' ∧
      s'.threads i = .returned text (m.tokenizerEncode text)
  /-- So can a new one. -/
  called : ∀ i, (∀ text phase, s.threads i ≠ .running text phase) → ∀ text,
    ∃ n s', m.machine.run s (.call i text :: List.replicate n (.turn i)) = some s' ∧
      s'.threads i = .returned text (m.tokenizerEncode text)

/-- **The cache is transparent** in every state that its threads reach. -/
theorem chatTokenCache (h : m.machine.Reachable s) : m.Transparent s := by
  have hs : m.Inv s := m.invariant_inv.reachable h
  constructor
  · rw [hs.1.bytes]
    apply congrArg List.sum
    exact List.map_congr_left hs.1.costs
  · exact hs.1.limit
  · intro i text result hreturned
    have hok := hs.2 i
    rwa [hreturned] at hok
  · intro i text phase hrunning
    obtain ⟨n, s', -, hrun, hreturned⟩ := exists_returned hs
      (by rw [hrunning]; exact Thread.noConfusion) (le_refl (s.threads i).turns)
    rw [hrunning] at hreturned
    exact ⟨n, s', hrun, hreturned⟩
  · intro i hfree text
    exact exists_called hs hfree text

/-! ## Two messages -/

/-- The marker and two letters. -/
def sampleCache : ChatTokenCache where
  tokenizer :=
    { tokens := ["<|im_start|>", "a", "b"].map bytes, merges := [], bosId := 0, addBos := false, tokens_lt := by decide }
  nfc := QwenTokenizer.sampleNfc
  classes := .ascii
  limit := 65536

/-- The marker and a letter so many times. -/
def sampleMessage (n : ℕ) (letter : Byte) : Bytes := boundary ++ List.replicate n letter

def longMessage : Bytes := sampleMessage 1000 0x61
def longTokens : List ℤ := 0 :: List.replicate 1000 1
def shortMessage : Bytes := sampleMessage 2 0x62
def sampleText : Bytes := longMessage ++ shortMessage

/-- The marker is a token, and so is each letter; the letters after a marker are one stretch. -/
theorem sampleCache_tokens : sampleCache.enabled = true ∧
    sampleCache.tokenizer.byteIds 0x61 = [1] ∧ sampleCache.tokenizer.byteIds 0x62 = [2] ∧
    sampleCache.tokenizer.segments longMessage = [⟨boundary, some 0⟩, ⟨List.replicate 1000 0x61, none⟩] ∧
    sampleCache.tokenizer.segments shortMessage = [⟨boundary, some 0⟩, ⟨List.replicate 2 0x62, none⟩] := by
  decide +kernel

/-- A message is its marker and the tokens of its letters. -/
theorem tokenizerEncode_sampleMessage {n : ℕ} {letter : Byte} {id : ℤ} (hletter : letter < 0x80)
    (hid : sampleCache.tokenizer.byteIds letter = [id])
    (hsegments : sampleCache.tokenizer.segments (sampleMessage n letter) =
      [⟨boundary, some 0⟩, ⟨List.replicate n letter, none⟩]) :
    sampleCache.tokenizerEncode (sampleMessage n letter) = .ok (0 :: List.replicate n id) := by
  have hascii : ∀ c ∈ sampleMessage n letter, c < 0x80 := by
    intro c hc
    rcases List.mem_append.mp hc with hc | hc
    · exact (by decide : ∀ c ∈ boundary, c < 0x80) c hc
    · rw [(List.mem_replicate.mp hc).2]
      exact hletter
  have hbytes : (List.replicate n letter).flatMap sampleCache.tokenizer.byteIds = List.replicate n id := by
    rw [List.flatMap_replicate, hid]
    exact List.flatten_replicate_singleton
  unfold tokenizerEncode
  rw [QwenTokenizer.encode_of_no_merges rfl hascii, hsegments]
  exact congrArg (fun ids => Except.ok (0 :: (ids ++ []))) hbytes |>.trans (by rw [List.append_nil])

theorem tokenizerEncode_longMessage : sampleCache.tokenizerEncode longMessage = .ok longTokens :=
  tokenizerEncode_sampleMessage (by decide) sampleCache_tokens.2.1 sampleCache_tokens.2.2.2.1

theorem tokenizerEncode_shortMessage : sampleCache.tokenizerEncode shortMessage = .ok [0, 2, 2] :=
  tokenizerEncode_sampleMessage (by decide) sampleCache_tokens.2.2.1 sampleCache_tokens.2.2.2.2

/-- The loop cuts the text where the second message begins. -/
theorem sampleText_cut :
    sampleText.take (pieceEnd sampleText) = longMessage ∧ sampleText.drop (pieceEnd sampleText) = shortMessage ∧
    shortMessage.take (pieceEnd shortMessage) = shortMessage ∧ shortMessage.drop (pieceEnd shortMessage) = [] := by
  obtain ⟨hlong, hshort⟩ : pieceEnd sampleText = longMessage.length ∧ pieceEnd shortMessage = shortMessage.length := by
    decide +kernel
  rw [hlong, hshort]
  exact ⟨List.take_left, List.drop_left, List.take_length, List.drop_length⟩

theorem begin_sampleText : sampleCache.begin sampleText = .running sampleText (.appending sampleText []) := by
  have hlength : sampleText.length = boundary.length + 1000 + (boundary.length + 2) := by
    unfold sampleText longMessage shortMessage sampleMessage
    rw [List.length_append, List.length_append, List.length_append, List.length_replicate, List.length_replicate]
  have hboundary : boundary.length = 12 := rfl
  unfold begin
  rw [if_neg]
  rw [sampleCache_tokens.1]
  rintro (henabled | hlimit | hshort)
  · cases henabled
  · cases hlimit
  · omega

theorem sampleText_ne_nil : sampleText ≠ [] := List.cons_ne_nil _ _

/-- The cache after both messages. -/
def sampleFilled : Cache :=
  (Cache.empty.store sampleCache.limit longMessage longTokens).store sampleCache.limit shortMessage [0, 2, 2]

/-- The first message, as the cache has it. -/
def sampleEntry : ℕ × Entry := (0, ⟨longMessage, longTokens, Cache.cost longMessage longTokens⟩)

/-- Each of the messages is found once it is stored, and not before. -/
theorem index_sampleFilled : (Cache.empty.store sampleCache.limit longMessage longTokens).index shortMessage = none ∧
    sampleFilled.index longMessage = some 0 ∧ sampleFilled.entry 0 = some sampleEntry := by
  decide +kernel

/-- One thread has encoded the text, and another one works. -/
def sampleShared (c : Cache) (thread : Thread) : Shared where
  cache := c
  threads := Function.update (Function.update (fun _ => .idle) 0
    (.returned sampleText (.ok (longTokens ++ [0, 2, 2])))) 1 thread

theorem sampleShared_reachable :
    sampleCache.machine.Reachable (sampleShared sampleFilled (.running sampleText (.appending sampleText []))) := by
  obtain ⟨hlong, hafter, hshort, hend⟩ := sampleText_cut
  have hidle : sampleCache.machine.Reachable ⟨.empty, fun _ => .idle⟩ := .of_init ⟨rfl, fun _ => rfl⟩
  have hcalled := called_reachable hidle 0 sampleText nofun
  rw [begin_sampleText] at hcalled
  -- the first message is not there, and is stored
  have hmissed := turned_reachable hcalled (turn_miss sampleText_ne_nil rfl)
  rw [hlong, hafter] at hmissed
  have hstored := turned_reachable hmissed (turn_store tokenizerEncode_longMessage)
  rw [List.nil_append] at hstored
  -- nor is the second
  have hmissed' := turned_reachable hstored (turn_miss (List.cons_ne_nil _ _) (hshort.symm ▸ index_sampleFilled.1))
  rw [hshort, hend] at hmissed'
  have hstored' := turned_reachable hmissed' (turn_store tokenizerEncode_shortMessage)
  have hreturned := turned_reachable hstored' turn_nil
  have hagain := called_reachable hreturned 1 sampleText nofun
  rw [begin_sampleText] at hagain
  unfold sampleShared sampleFilled
  exact hagain

/-- The second thread finds the first message, which moves to the front. -/
theorem sampleShared_hit :
    sampleCache.turn sampleFilled (.running sampleText (.appending sampleText [])) =
      some (sampleFilled.touch sampleEntry, .running sampleText (.appending shortMessage longTokens)) := by
  obtain ⟨hlong, hafter, -, -⟩ := sampleText_cut
  obtain ⟨-, hfound, hentry⟩ := index_sampleFilled
  rw [← hlong] at hfound
  have hturn : sampleCache.turn sampleFilled (.running sampleText (.appending sampleText [])) =
      some (sampleFilled.touch sampleEntry,
        .running sampleText (.appending (sampleText.drop (pieceEnd sampleText)) ([] ++ longTokens))) :=
    turn_hit sampleText_ne_nil hfound hentry
  rw [hafter, List.nil_append] at hturn
  exact hturn

/-- After two messages were stored, a call that has found the first one is transparent. -/
theorem chatTokenCache_hit :
    sampleCache.turn sampleFilled (.running sampleText (.appending sampleText [])) =
      some (sampleFilled.touch sampleEntry, .running sampleText (.appending shortMessage longTokens)) ∧
    sampleCache.Transparent
      (sampleShared (sampleFilled.touch sampleEntry) (.running sampleText (.appending shortMessage longTokens))) :=
  ⟨sampleShared_hit, chatTokenCache (turned_reachable sampleShared_reachable sampleShared_hit)⟩

end ChatTokenCache

end Qw3.Tokenizer
