import Mathlib.Data.List.Sort
import Mathlib.Tactic

/-!
# Sampling the tokens of an action

`ActionAttentionParser` decides which generated tokens are sampled
(`kvmem_action_attention.hpp`).  A verifier batch is prepared as a whole; what is
accepted of it is committed.

* `ActionAttentionParser.prepare`, `ActionAttentionParser.commit` — the source's.
* `feed`, `samples` — the tokens one at a time: the state after them, and where a
  sample is taken.
* `prepare_spec`, `commit_spec` — what a batch prepares, and what a commit takes of it.
* `speculativeSampling` — batches sample what their accepted tokens sample alone.
-/

namespace Qw3.Policy

/-! ## The source -/

/-- A token. -/
abbrev Token := BitVec 32

/-- `Scope`. -/
inductive ActionScope
  | toolCall | nonThinking
  deriving DecidableEq, Repr

/-- `State`. -/
structure ActionState where
  thinking : Bool := false
  action : Bool := false
  tokens : BitVec 64 := 0
  deriving DecidableEq, Repr

/-- What is configured of a parser. -/
structure ActionConfig where
  scope : ActionScope := .toolCall
  openToken : Token := -1
  close : Token := -1
  thinkOpen : Token := -1
  thinkClose : Token := -1
  interval : BitVec 32 := 16

/-- `ActionAttentionParser`. -/
structure ActionAttentionParser where
  config : ActionConfig
  committed : ActionState := {}
  candidate : List ActionState := []
  mask : BitVec 64 := 0
  accepted : ℕ := 0

/-- A row of the loop of `prepare`: the state after it, and whether it is sampled. -/
def ActionConfig.consume (c : ActionConfig) (s : ActionState) (t : Token) : ActionState × Bool :=
  if t = c.thinkOpen then ({ s with thinking := true, action := false }, false)
  else if t = c.thinkClose then ({ s with thinking := false }, false)
  else if t = c.close then ({ s with action := false }, false)
  else if t = c.openToken ∧ s.thinking = false then ({ s with action := true }, false)
  else if s.thinking = false ∧ (c.scope = .nonThinking ∨ s.action = true) then
    ({ s with tokens := s.tokens + 1 }, s.tokens % c.interval.setWidth 64 = 0)
  else (s, false)

/-- The loop of `prepare` from row `i` on: the candidates, and the mask. -/
def ActionConfig.prepareRows (c : ActionConfig) :
    ℕ → ActionState → List Token → Except String (List ActionState × BitVec 64)
  | _, _, [] => .ok ([], 0)
  | i, s, t :: ts =>
      if (c.consume s t).2 = true ∧ 64 ≤ i then
        .error "action capture supports verifier batches up to 64 rows"
      else
        (c.prepareRows (i + 1) (c.consume s t).1 ts).map fun r =>
          ((c.consume s t).1 :: r.1, (if (c.consume s t).2 then 1#64 <<< i else 0) ||| r.2)

/-- The rows before the `n`-th. -/
def prefixMask (n : ℕ) : BitVec 64 := if 64 ≤ n then BitVec.allOnes 64 else (1#64 <<< n) - 1

namespace ActionAttentionParser

/-- `prepare`. -/
def prepare (p : ActionAttentionParser) (tokens : List Token) : Except String ActionAttentionParser :=
  (p.config.prepareRows 0 p.committed tokens).map fun r =>
    { p with candidate := r.1, mask := r.2, accepted := 0 }

/-- `commit`: the newly sampled rows, and the parser after it. -/
def commit (p : ActionAttentionParser) (count : ℕ) : Except String (BitVec 64 × ActionAttentionParser) :=
  if p.candidate.length < count ∨ count < p.accepted then
    .error "invalid action attention acceptance prefix"
  else
    .ok (p.mask &&& prefixMask count &&& ~~~prefixMask p.accepted,
      { p with
        committed := if count = 0 then p.committed else p.candidate.getD (count - 1) p.committed
        accepted := count })

/-! ## Runs -/

/-- The rows of a mask. -/
def rows (mask : BitVec 64) : List ℕ := (List.range 64).filter mask.getLsbD

/-- Commits one after another: the rows that each reports. -/
def commitAll (p : ActionAttentionParser) : List ℕ → Except String (List ℕ × ActionAttentionParser)
  | [] => .ok ([], p)
  | count :: counts =>
      match p.commit count with
      | .error what => .error what
      | .ok (newly, q) => (commitAll q counts).map fun r => (rows newly ++ r.1, r.2)

end ActionAttentionParser

/-- A verifier batch, and the lengths that are accepted of it one after the other. -/
structure VerifyBatch where
  tokens : List Token
  counts : List ℕ

namespace VerifyBatch

/-- The length that is accepted in the end. -/
def accepted (b : VerifyBatch) : ℕ := b.counts.getLast?.getD 0

/-- A batch that the verifier runs. -/
structure Valid (b : VerifyBatch) : Prop where
  rows_le : b.tokens.length ≤ 64
  sorted : b.counts.Pairwise (· ≤ ·)
  counts_le : ∀ n ∈ b.counts, n ≤ b.tokens.length

theorem Valid.accepted_le {b : VerifyBatch} (h : b.Valid) : b.accepted ≤ b.tokens.length := by
  rw [accepted]
  cases hlast : b.counts.getLast? with
  | none => exact Nat.zero_le _
  | some n => exact h.counts_le n (List.mem_of_getLast? hlast)

/-- A token alone. -/
def single (t : Token) : VerifyBatch := ⟨[t], [1]⟩

end VerifyBatch

namespace ActionAttentionParser

/-- The batches of a run, the first of whose tokens stands at a position: the
positions that are reported. -/
def run (p : ActionAttentionParser) (position : ℕ) :
    List VerifyBatch → Except String (List ℕ × ActionAttentionParser)
  | [] => .ok ([], p)
  | b :: batches =>
      match p.prepare b.tokens with
      | .error what => .error what
      | .ok q =>
          match q.commitAll b.counts with
          | .error what => .error what
          | .ok (reported, q) =>
              (run q (position + b.accepted) batches).map fun r =>
                (reported.map (position + ·) ++ r.1, r.2)

end ActionAttentionParser

/-- The tokens that a run accepts. -/
def acceptedTokens (batches : List VerifyBatch) : List Token :=
  batches.flatMap fun b => b.tokens.take b.accepted

/-! ## One token at a time -/

namespace ActionConfig

variable (c : ActionConfig)

/-- The state after tokens. -/
def feed (s : ActionState) (tokens : List Token) : ActionState :=
  tokens.foldl (fun s t => (c.consume s t).1) s

/-- Where a sample is taken of tokens that begin at `n`. -/
def samples : ℕ → ActionState → List Token → List ℕ
  | _, _, [] => []
  | n, s, t :: ts => (if (c.consume s t).2 then [n] else []) ++ samples (n + 1) (c.consume s t).1 ts

variable {c} {s : ActionState} {n m i : ℕ} {ts us : List Token}

@[simp] theorem feed_nil : c.feed s [] = s := rfl

theorem feed_append : c.feed s (ts ++ us) = c.feed (c.feed s ts) us := List.foldl_append

theorem samples_append :
    c.samples n s (ts ++ us) = c.samples n s ts ++ c.samples (n + ts.length) (c.feed s ts) us := by
  induction ts generalizing n s with
  | nil => rfl
  | cons t ts ih =>
      rw [List.cons_append, samples, samples, ih, List.append_assoc, List.length_cons,
        show n + (ts.length + 1) = n + 1 + ts.length by omega]
      rfl

theorem samples_bounds (h : m ∈ c.samples n s ts) : n ≤ m ∧ m < n + ts.length := by
  induction ts generalizing n s with
  | nil => cases h
  | cons t ts ih =>
      rw [samples, List.mem_append] at h
      rw [List.length_cons]
      rcases h with h | h
      · have hm : m = n := by
          split at h
          · exact List.mem_singleton.mp h
          · cases h
        omega
      · have := ih h
        omega

theorem samples_map (k : ℕ) : (c.samples n s ts).map (k + ·) = c.samples (k + n) s ts := by
  induction ts generalizing n s with
  | nil => rfl
  | cons t ts ih =>
      rw [samples, samples, List.map_append, ih, Nat.add_assoc]
      congr 1
      split <;> rfl

theorem samples_sorted : (c.samples n s ts).Pairwise (· < ·) := by
  induction ts generalizing n s with
  | nil => exact List.Pairwise.nil
  | cons t ts ih =>
      rw [samples, List.pairwise_append]
      refine ⟨?_, ih, ?_⟩
      · split
        · exact List.pairwise_singleton _ _
        · exact List.Pairwise.nil
      · intro a ha b hb
        have hb := (samples_bounds hb).1
        split at ha
        · rw [List.mem_singleton.mp ha]
          omega
        · cases ha

/-- The samples of a beginning are those that come before its end. -/
theorem samples_take (hi : i ≤ ts.length) :
    c.samples n s (ts.take i) = (c.samples n s ts).filter (· < n + i) := by
  conv_rhs => rw [← List.take_append_drop i ts, samples_append, List.filter_append]
  have hlen : (ts.take i).length = i := List.length_take_of_le hi
  have hbefore : (c.samples n s (ts.take i)).filter (· < n + i) = c.samples n s (ts.take i) := by
    rw [List.filter_eq_self]
    intro m hm
    have := samples_bounds hm
    rw [hlen] at this
    exact decide_eq_true this.2
  have hafter : (c.samples (n + (ts.take i).length) (c.feed s (ts.take i)) (ts.drop i)).filter
      (· < n + i) = [] := by
    rw [List.filter_eq_nil_iff]
    intro m hm
    have := samples_bounds hm
    rw [hlen] at this
    simp only [decide_eq_true_eq]
    omega
  rw [hbefore, hafter, List.append_nil]

end ActionConfig

/-! ## Batches -/

theorem getLsbD_prefixMask {n i : ℕ} (hi : i < 64) : (prefixMask n).getLsbD i = decide (i < n) := by
  unfold prefixMask
  split
  next hn =>
    rw [BitVec.getLsbD_allOnes, decide_eq_true hi, decide_eq_true (hi.trans_le hn)]
  next hn =>
    have hpow : (2 : ℕ) ^ n < 2 ^ 64 := Nat.pow_lt_pow_right (by norm_num) (by omega)
    have hpos : 0 < (2 : ℕ) ^ n := Nat.two_pow_pos n
    have hnat : ((1#64 <<< n) - 1).toNat = 2 ^ n - 1 := by
      have hshift : (1#64 <<< n).toNat = 2 ^ n := by
        rw [BitVec.toNat_shiftLeft, Nat.shiftLeft_eq, BitVec.toNat_ofNat, Nat.one_mod_eq_one.mpr
          (by norm_num), Nat.one_mul, Nat.mod_eq_of_lt hpow]
      have hle : 1#64 ≤ 1#64 <<< n := BitVec.le_def.mpr (hshift ▸ hpos)
      exact (BitVec.toNat_sub_of_le hle).trans (by rw [hshift]; rfl)
    rw [← BitVec.testBit_toNat, hnat, Nat.testBit_two_pow_sub_one]

/-- What the loop of `prepare` makes of a batch: the state after each row, and the rows
where a sample is taken. -/
theorem ActionConfig.prepareRows_spec {c : ActionConfig} {i : ℕ} {s : ActionState} {ts : List Token}
    (h : i + ts.length ≤ 64) :
    ∃ states mask, c.prepareRows i s ts = .ok (states, mask) ∧ states.length = ts.length ∧
      (∀ k < ts.length, states[k]? = some (c.feed s (ts.take (k + 1)))) ∧
      ∀ j < 64, mask.getLsbD j = decide (j ∈ c.samples i s ts) := by
  induction ts generalizing i s with
  | nil =>
      refine ⟨[], 0, rfl, rfl, ?_, ?_⟩
      · intro k hk
        cases hk
      · intro j _
        exact BitVec.getLsbD_zero
  | cons t ts ih =>
      rw [List.length_cons] at h
      obtain ⟨states, mask, hrows, hlen, hstates, hmask⟩ := ih (i := i + 1)
        (s := (c.consume s t).1) (by omega)
      have hlow : ¬ ((c.consume s t).2 = true ∧ 64 ≤ i) := by omega
      refine ⟨(c.consume s t).1 :: states, (if (c.consume s t).2 then 1#64 <<< i else 0) ||| mask,
        ?_, ?_, ?_, ?_⟩
      · rw [prepareRows, if_neg hlow, hrows]
        rfl
      · rw [List.length_cons, List.length_cons, hlen]
      · intro k hk
        cases k with
        | zero => rfl
        | succ k => exact hstates k (by simpa using hk)
      · intro j hj
        rw [BitVec.getLsbD_or, hmask j hj, samples, Bool.eq_iff_iff]
        simp only [Bool.or_eq_true, decide_eq_true_eq, List.mem_append]
        refine or_congr_left ?_
        split
        next hsampled =>
          rw [BitVec.getLsbD_shiftLeft]
          simp only [hj, decide_true, Bool.true_and, List.mem_singleton]
          simp only [BitVec.getLsbD_one, Bool.and_eq_true, decide_eq_true_eq, Bool.not_eq_true',
            decide_eq_false_iff_not]
          omega
        next => simp

namespace ActionAttentionParser

variable {p q : ActionAttentionParser} {ts : List Token} {a n : ℕ} {counts : List ℕ}

/-- The parser between two commits of a batch, which began in state `s`: so many of its
tokens are accepted. -/
structure Midway (p : ActionAttentionParser) (s : ActionState) (ts : List Token) (a : ℕ) : Prop where
  rows_le : ts.length ≤ 64
  length_eq : p.candidate.length = ts.length
  candidate : ∀ k < ts.length, p.candidate[k]? = some (p.config.feed s (ts.take (k + 1)))
  mask : ∀ j < 64, p.mask.getLsbD j = decide (j ∈ p.config.samples 0 s ts)
  accepted : p.accepted = a
  committed : p.committed = p.config.feed s (ts.take a)

/-- A batch of at most 64 rows is prepared; nothing of it is committed. -/
theorem prepare_spec (p : ActionAttentionParser) (h : ts.length ≤ 64) :
    ∃ q, p.prepare ts = .ok q ∧ q.config = p.config ∧ q.Midway p.committed ts 0 := by
  obtain ⟨states, mask, hrows, hlen, hstates, hmask⟩ := ActionConfig.prepareRows_spec (c := p.config)
    (i := 0) (s := p.committed) (by rwa [Nat.zero_add])
  refine ⟨{ p with candidate := states, mask := mask, accepted := 0 }, ?_, rfl, ?_⟩
  · rw [prepare, hrows]
    rfl
  · exact ⟨h, hlen, hstates, hmask, rfl, by rw [List.take_zero, ActionConfig.feed_nil]⟩

/-- The rows of a mask whose bits are those of a sorted list. -/
theorem rows_eq {mask : BitVec 64} {l : List ℕ} (hsorted : l.Pairwise (· < ·)) (hlt : ∀ j ∈ l, j < 64)
    (hmask : ∀ j < 64, mask.getLsbD j = decide (j ∈ l)) : rows mask = l := by
  have hrange : (rows mask).Pairwise (· < ·) := List.pairwise_lt_range.filter _
  have hperm : (rows mask).Perm l := by
    rw [List.perm_ext_iff_of_nodup (hrange.imp Nat.ne_of_lt) (hsorted.imp Nat.ne_of_lt)]
    intro j
    rw [rows, List.mem_filter, List.mem_range]
    constructor
    · rintro ⟨hj, hbit⟩
      rw [hmask j hj] at hbit
      exact of_decide_eq_true hbit
    · intro hj
      exact ⟨hlt j hj, by rw [hmask j (hlt j hj), decide_eq_true hj]⟩
  exact hperm.eq_of_pairwise (fun x y _ _ hxy hyx => absurd hxy hyx.asymm) hrange hsorted

/-- A commit reports the sampled rows between the two lengths. -/
theorem commit_spec {s : ActionState} (h : p.Midway s ts a) (ha : a ≤ n) (hn : n ≤ ts.length) :
    ∃ newly q, p.commit n = .ok (newly, q) ∧ q.config = p.config ∧ q.Midway s ts n ∧
      rows newly = (p.config.samples 0 s ts).filter fun j => a ≤ j ∧ j < n := by
  have hok : ¬ (p.candidate.length < n ∨ n < p.accepted) := by
    rw [h.length_eq, h.accepted]
    omega
  refine ⟨_, _, if_neg hok, rfl, ⟨h.rows_le, h.length_eq, h.candidate, h.mask, rfl, ?_⟩, ?_⟩
  · dsimp only
    split
    next hzero =>
      obtain rfl : a = 0 := by omega
      rw [h.committed, hzero]
    next hpos =>
      rw [List.getD_eq_getElem?_getD, h.candidate (n - 1) (by omega), Nat.sub_add_cancel (by omega)]
      rfl
  · have hlt : ∀ j ∈ p.config.samples 0 s ts, j < 64 := by
      intro j hj
      have := ActionConfig.samples_bounds hj
      have := h.rows_le
      omega
    refine rows_eq (ActionConfig.samples_sorted.filter _) (fun j hj => hlt j (List.mem_of_mem_filter hj)) ?_
    intro j hj
    rw [BitVec.getLsbD_and, BitVec.getLsbD_and, BitVec.getLsbD_not, h.mask j hj,
      getLsbD_prefixMask hj, getLsbD_prefixMask hj, h.accepted, Bool.eq_iff_iff]
    simp only [List.mem_filter, Bool.and_eq_true, decide_eq_true_eq, Bool.not_eq_true',
      decide_eq_false_iff_not, not_lt]
    tauto

/-- What a sorted list has below `n` comes first. -/
theorem filter_below {l : List ℕ} (hl : l.Pairwise (· < ·)) (n : ℕ) :
    l = (l.filter fun j => j < n) ++ l.filter fun j => n ≤ j := by
  induction l with
  | nil => rfl
  | cons x l ih =>
      have hlt := (List.pairwise_cons.mp hl).1
      by_cases hx : x < n
      · have hx' : ¬ n ≤ x := hx.not_ge
        simp only [List.filter_cons, decide_eq_true hx, decide_eq_false hx', if_true,
          Bool.false_eq_true, if_false, List.cons_append]
        exact congrArg _ (ih hl.of_cons)
      · have hge : ∀ j ∈ x :: l, n ≤ j := by
          intro j hj
          rcases List.mem_cons.mp hj with rfl | hj
          · omega
          · have := hlt j hj
            omega
        have hnone : ((x :: l).filter fun j => j < n) = [] := by
          rw [List.filter_eq_nil_iff]
          intro j hj
          rw [decide_eq_true_eq, not_lt]
          exact hge j hj
        rw [hnone, List.nil_append, eq_comm, List.filter_eq_self]
        exact fun j hj => decide_eq_true (hge j hj)

/-- Two parts of a sorted list, one after the other. -/
theorem filter_split {l : List ℕ} {b : ℕ} (hl : l.Pairwise (· < ·)) (ha : a ≤ n) (hb : n ≤ b) :
    (l.filter fun j => a ≤ j ∧ j < n) ++ (l.filter fun j => n ≤ j ∧ j < b) =
      l.filter fun j => a ≤ j ∧ j < b := by
  conv_rhs => rw [filter_below hl n, List.filter_append, List.filter_filter, List.filter_filter]
  congr 1
  · refine List.filter_congr fun j _ => ?_
    rw [Bool.eq_iff_iff]
    simp only [Bool.and_eq_true, decide_eq_true_eq]
    omega
  · refine List.filter_congr fun j _ => ?_
    rw [Bool.eq_iff_iff]
    simp only [Bool.and_eq_true, decide_eq_true_eq]
    omega

/-- The commits of a batch report each sampled row of what they accept, once. -/
theorem commitAll_spec {s : ActionState} (h : p.Midway s ts a) (hsorted : (a :: counts).Pairwise (· ≤ ·))
    (hle : ∀ n ∈ counts, n ≤ ts.length) :
    ∃ reported q, p.commitAll counts = .ok (reported, q) ∧ q.config = p.config ∧
      q.Midway s ts (counts.getLast?.getD a) ∧
      reported = (p.config.samples 0 s ts).filter fun j => a ≤ j ∧ j < counts.getLast?.getD a := by
  induction counts generalizing p a with
  | nil =>
      refine ⟨[], p, rfl, rfl, h, ?_⟩
      rw [eq_comm, List.filter_eq_nil_iff]
      intro j _ hj
      have hj := of_decide_eq_true hj
      exact absurd hj.2 hj.1.not_gt
  | cons n counts ih =>
      rw [List.pairwise_cons] at hsorted
      obtain ⟨newly, q, hcommit, hconfig, hq, hrows⟩ := commit_spec h
        (hsorted.1 n List.mem_cons_self) (hle n List.mem_cons_self)
      obtain ⟨reported, r, hall, hconfig', hr, hreported⟩ := ih hq hsorted.2
        fun m hm => hle m (List.mem_cons_of_mem _ hm)
      have hlast : (n :: counts).getLast?.getD a = counts.getLast?.getD n := by
        cases counts with
        | nil => rfl
        | cons m counts =>
            rw [List.getLast?_cons_cons, List.getLast?_eq_getLast_of_ne_nil (List.cons_ne_nil _ _)]
            rfl
      refine ⟨rows newly ++ reported, r, ?_, hconfig'.trans hconfig, ?_, ?_⟩
      · rw [commitAll, hcommit]
        dsimp only
        rw [hall]
        rfl
      · rwa [hlast]
      · have hn : a ≤ n := hsorted.1 n List.mem_cons_self
        have hend : n ≤ counts.getLast?.getD n := by
          cases hcounts : counts.getLast? with
          | none => exact le_rfl
          | some m => exact (List.pairwise_cons.mp hsorted.2).1 m (List.mem_of_getLast? hcounts)
        rw [hlast, hrows, hreported, hconfig]
        exact filter_split ActionConfig.samples_sorted hn hend

/-! ## Runs -/

/-- A batch of a run. -/
theorem runBatch_spec {b : VerifyBatch} (hb : b.Valid) (p : ActionAttentionParser) :
    ∃ q reported r, p.prepare b.tokens = .ok q ∧ q.commitAll b.counts = .ok (reported, r) ∧
      r.config = p.config ∧ r.committed = p.config.feed p.committed (b.tokens.take b.accepted) ∧
      reported = p.config.samples 0 p.committed (b.tokens.take b.accepted) := by
  obtain ⟨q, hprepare, hconfig, hq⟩ := p.prepare_spec hb.rows_le
  have hsorted : (0 :: b.counts).Pairwise (· ≤ ·) :=
    List.pairwise_cons.mpr ⟨fun n _ => Nat.zero_le n, hb.sorted⟩
  obtain ⟨reported, r, hall, hconfig', hr, hreported⟩ := commitAll_spec hq hsorted hb.counts_le
  refine ⟨q, reported, r, hprepare, hall, hconfig'.trans hconfig, ?_, ?_⟩
  · rw [hr.committed, hconfig', hconfig]
    rfl
  · rw [hreported, hconfig, ActionConfig.samples_take hb.accepted_le]
    refine List.filter_congr fun j _ => ?_
    rw [Bool.eq_iff_iff]
    simp only [decide_eq_true_eq, Nat.zero_le, true_and, Nat.zero_add]
    rfl

/-- **A run.** It commits and reports what its accepted tokens do one at a time. -/
theorem run_spec (batches : List VerifyBatch) (h : ∀ b ∈ batches, b.Valid) (p : ActionAttentionParser)
    (position : ℕ) :
    ∃ q, p.run position batches =
        .ok (p.config.samples position p.committed (acceptedTokens batches), q) ∧
      q.config = p.config ∧ q.committed = p.config.feed p.committed (acceptedTokens batches) := by
  induction batches generalizing p position with
  | nil => exact ⟨p, rfl, rfl, rfl⟩
  | cons b batches ih =>
      have hb := h b List.mem_cons_self
      obtain ⟨q, reported, r, hprepare, hall, hconfig, hcommitted, hreported⟩ := runBatch_spec hb p
      obtain ⟨z, hrun, hconfig', hz⟩ := ih (fun b hb => h b (List.mem_cons_of_mem _ hb)) r
        (position + b.accepted)
      have htokens : acceptedTokens (b :: batches) =
          b.tokens.take b.accepted ++ acceptedTokens batches := List.flatMap_cons
      have hlen : (b.tokens.take b.accepted).length = b.accepted :=
        List.length_take_of_le hb.accepted_le
      refine ⟨z, ?_, hconfig'.trans hconfig, ?_⟩
      · rw [run, hprepare]
        dsimp only
        rw [hall]
        dsimp only
        rw [hrun, hconfig, hcommitted, hreported, htokens, ActionConfig.samples_append, hlen,
          ActionConfig.samples_map]
        rfl
      · rw [hz, hconfig, hcommitted, htokens, ActionConfig.feed_append]

end ActionAttentionParser

/-! ## Serial sampling -/

theorem VerifyBatch.valid_single (t : Token) : (single t).Valid where
  rows_le := Nat.one_le_ofNat
  sorted := List.pairwise_singleton _ _
  counts_le _ hn := (List.mem_singleton.mp hn).le

theorem acceptedTokens_single (ts : List Token) : acceptedTokens (ts.map VerifyBatch.single) = ts := by
  induction ts with
  | nil => rfl
  | cons t ts ih => exact congrArg _ ih

/-- **Speculative sampling is serial sampling.** Whatever is prepared beyond what is
accepted and however often the acceptance of a batch is committed, no call throws, the
state that is committed in the end is that of the accepted tokens one at a time, and
the same positions are reported, each once: those where the accepted tokens are sampled. -/
theorem speculativeSampling (p : ActionAttentionParser) (batches : List VerifyBatch)
    (h : ∀ b ∈ batches, b.Valid) :
    ∃ q q', p.run 0 batches = .ok (p.config.samples 0 p.committed (acceptedTokens batches), q) ∧
      p.run 0 ((acceptedTokens batches).map VerifyBatch.single) =
        .ok (p.config.samples 0 p.committed (acceptedTokens batches), q') ∧
      q.committed = q'.committed ∧ q'.committed = p.config.feed p.committed (acceptedTokens batches) ∧
      (p.config.samples 0 p.committed (acceptedTokens batches)).Nodup := by
  obtain ⟨q, hrun, -, hq⟩ := ActionAttentionParser.run_spec batches h p 0
  have hsingle : ∀ b ∈ (acceptedTokens batches).map VerifyBatch.single, b.Valid := by
    intro b hb
    obtain ⟨t, -, rfl⟩ := List.mem_map.mp hb
    exact VerifyBatch.valid_single t
  obtain ⟨q', hrun', -, hq'⟩ := ActionAttentionParser.run_spec _ hsingle p 0
  rw [acceptedTokens_single] at hrun' hq'
  exact ⟨q, q', hrun, hrun', hq.trans hq'.symm, hq', ActionConfig.samples_sorted.imp Nat.ne_of_lt⟩

/-- A batch of three rows of which two are accepted, one after the other. -/
theorem speculativeSampling_prefix :
    (∀ b ∈ [(⟨[7, 8, 3], [1, 2]⟩ : VerifyBatch)], b.Valid) ∧
      ∃ q q', (⟨{ scope := .nonThinking, thinkOpen := 3, interval := 1 }, {}, [], 0, 0⟩ :
          ActionAttentionParser).run 0 [⟨[7, 8, 3], [1, 2]⟩] = .ok ([0, 1], q) ∧
        (⟨{ scope := .nonThinking, thinkOpen := 3, interval := 1 }, {}, [], 0, 0⟩ : ActionAttentionParser).run 0
          ((acceptedTokens [⟨[7, 8, 3], [1, 2]⟩]).map VerifyBatch.single) = .ok ([0, 1], q') ∧
        q.committed = q'.committed := by
  have hvalid : ∀ b ∈ [(⟨[7, 8, 3], [1, 2]⟩ : VerifyBatch)], b.Valid := by
    intro b hb
    rw [List.mem_singleton.mp hb]
    exact ⟨by decide, by decide, by decide⟩
  obtain ⟨q, q', hrun, hrun', hsame, -, -⟩ := speculativeSampling
    ⟨{ scope := .nonThinking, thinkOpen := 3, interval := 1 }, {}, [], 0, 0⟩ _ hvalid
  exact ⟨hvalid, q, q', hrun, hrun', hsame⟩

end Qw3.Policy
