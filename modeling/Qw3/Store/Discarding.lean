import Qw3.Store.Views

/-!
# Discarded pages

When an append is accepted in part, whole pages of rejected tokens are released.
A page is released if and only if its first token is a rejected one: the tokens
of a slot are written in order, so whatever is kept on a page is at its front.

* `State.KeptAt`, `Append.RejectedAt` — the physical tokens of either kind.
* `lt_of_kept` — in one slot, what is kept lies before what is rejected.
* `discardedPages` — the released pages are those that hold a rejected token and
  no token that is kept.
-/

namespace Qw3.Store

open Qw3.Repository (KvMemBlockHandle Record Repo)

/-- A physical token that stays: committed before in the tail's block, or
accepted now. -/
def State.KeptAt (s : State) (a : Append) (accepted address : ℕ) : Prop :=
  (∃ tl, a.tail = some tl ∧ ∃ o < (s.blocks tl.handle.slot).nTokens,
    address = (s.blocks tl.handle.slot).origPosStart + o) ∨
  ∃ p h, a.begin ≤ p ∧ p < a.begin + accepted ∧ a.place p = some (h, address)

/-- A physical token that was prepared and is rejected. -/
def Append.RejectedAt (a : Append) (accepted address : ℕ) : Prop :=
  ∃ p h, a.begin + accepted ≤ p ∧ p < a.begin + a.count ∧ a.place p = some (h, address)

/-! ## Pages -/

theorem ceilDiv_le_iff {x n page : ℕ} (hn : 0 < n) :
    State.ceilDiv x n ≤ page ↔ x ≤ page * n := by
  unfold State.ceilDiv
  rw [← Nat.lt_succ_iff, Nat.div_lt_iff_lt_mul hn, Nat.succ_mul]
  omega

theorem lt_ceilDiv_iff {x n page : ℕ} (hn : 0 < n) :
    page < State.ceilDiv x n ↔ page * n < x := by
  rw [← not_le, ceilDiv_le_iff hn, not_le]

/-- Pages do not cross the slots. -/
theorem div_eq_of_page {x y n b : ℕ} (hdvd : n ∣ b) (h : x / n = y / n) : x / b = y / b := by
  obtain ⟨k, rfl⟩ := hdvd
  rw [← Nat.div_div_eq_div_mul, ← Nat.div_div_eq_div_mul, h]

theorem slot_of_address {slot offset b : ℕ} (h : offset < b) : (slot * b + offset) / b = slot := by
  rw [Nat.mul_comm, Nat.mul_add_div (Nat.zero_lt_of_lt h), Nat.div_eq_of_lt h, Nat.add_zero]

namespace Span

/-- The physical token of a position that a span covers. -/
def address (sp : Span) (p : ℕ) : ℕ := sp.storageBegin + (p - sp.historyBegin)

/-- **The pages of one span.**  They begin with a rejected token of the span. -/
theorem discarded_iff {sp : Span} {keptEnd n page : ℕ} (hn : 0 < n) :
    (keptEnd < sp.historyBegin + sp.tokenCount ∧ Append.discardedFrom keptEnd n sp ≤ page ∧
        page < Append.discardedTo n sp) ↔
      ∃ p, keptEnd ≤ p ∧ sp.Covers p ∧ sp.address p = page * n := by
  unfold Append.discardedFrom Append.discardedTo
  rw [ceilDiv_le_iff hn, lt_ceilDiv_iff hn]
  unfold Covers address
  constructor
  · rintro ⟨hend, hfrom, hto⟩
    refine ⟨sp.historyBegin + (page * n - sp.storageBegin), ?_, ?_, ?_⟩
    · split_ifs at hfrom <;> omega
    · omega
    · omega
  · rintro ⟨p, hp, hcovers, heq⟩
    refine ⟨by omega, ?_, by omega⟩
    split_ifs <;> omega

end Span

/-! ## The tokens of an append -/

section Tokens

variable {s : State} {a : Append} {accepted n page x y : ℕ}

theorem place_iff (ha : s.AppendOk a) (hb : 0 < s.config.blockTokens) {p : ℕ}
    (hlow : a.begin ≤ p) (hhigh : p < a.begin + a.count) :
    (∃ h, a.place p = some (h, x)) ↔ ∃ sp ∈ a.spans, sp.Covers p ∧ sp.address p = x := by
  constructor
  · rintro ⟨h, hplace⟩
    obtain ⟨sp, hsp, hcovers⟩ := (ha.partition hb).covers hlow hhigh
    rw [ha.place hb hsp hcovers] at hplace
    exact ⟨sp, hsp, hcovers, (Prod.mk.inj (Option.some.inj hplace)).2⟩
  · rintro ⟨sp, hsp, hcovers, rfl⟩
    exact ⟨sp.handle, ha.place hb hsp hcovers⟩

theorem rejectedAt_iff (ha : s.AppendOk a) (hb : 0 < s.config.blockTokens) :
    a.RejectedAt accepted x ↔
      ∃ sp ∈ a.spans, ∃ p, a.begin + accepted ≤ p ∧ sp.Covers p ∧ sp.address p = x := by
  constructor
  · rintro ⟨p, h, hlow, hhigh, hplace⟩
    obtain ⟨sp, hsp, hcovers, heq⟩ := (place_iff ha hb (by omega) hhigh).mp ⟨h, hplace⟩
    exact ⟨sp, hsp, p, hlow, hcovers, heq⟩
  · rintro ⟨sp, hsp, p, hlow, hcovers, heq⟩
    have hhigh : p < a.begin + a.count := by
      obtain ⟨-, -, hend⟩ := (ha.partition hb).within hsp
      exact lt_of_lt_of_le hcovers.2 hend
    obtain ⟨h, hplace⟩ := (place_iff ha hb (by omega) hhigh).mpr ⟨sp, hsp, hcovers, heq⟩
    exact ⟨p, h, hlow, hhigh, hplace⟩

/-- The slot of a token is its span's. -/
theorem address_div (hs : s.Inv) (ha : s.AppendOk a) {sp : Span} (hsp : sp ∈ a.spans) {p : ℕ}
    (hcovers : sp.Covers p) : sp.address p / s.config.blockTokens = sp.handle.slot := by
  obtain ⟨offset, hat⟩ := ha.span hs.block_pos hs.directory hsp
  have hfits := hat.fits
  have hcovers : sp.historyBegin ≤ p ∧ p < sp.historyBegin + sp.tokenCount := hcovers
  rw [Span.address, hat.storageBegin, Nat.add_assoc]
  apply slot_of_address
  omega

/-- A kept token of the tail's block lies before the tail's span. -/
theorem tail_token_lt (hs : s.Inv) (ha : s.AppendOk a) {tl : Span} (htl : a.tail = some tl) {o : ℕ}
    (ho : o < (s.blocks tl.handle.slot).nTokens) :
    (s.blocks tl.handle.slot).origPosStart + o < tl.storageBegin ∧
      ((s.blocks tl.handle.slot).origPosStart + o) / s.config.blockTokens = tl.handle.slot := by
  obtain ⟨offset, hat⟩ := ha.span hs.block_pos hs.directory (Append.mem_spans_of_tail htl)
  obtain ⟨htokens, horigin⟩ := hat.tokens tl htl rfl
  have hfits := hat.fits
  rw [horigin, hat.storageBegin]
  constructor
  · omega
  · apply slot_of_address
    omega

/-- **In one slot, what is kept lies before what is rejected.** -/
theorem lt_of_kept (hs : s.Inv) (ha : s.AppendOk a) (hle : accepted ≤ a.count)
    (hkept : s.KeptAt a accepted y) (hrejected : a.RejectedAt accepted x)
    (hslot : y / s.config.blockTokens = x / s.config.blockTokens) : y < x := by
  have hb := hs.block_pos
  obtain ⟨sp, hsp, p, hp, hcovers, rfl⟩ := (rejectedAt_iff ha hb).mp hrejected
  rw [address_div hs ha hsp hcovers] at hslot
  rcases hkept with ⟨tl, htl, o, ho, rfl⟩ | ⟨p', h, hlow, hhigh, hplace⟩
  · obtain ⟨hlt, hdiv⟩ := tail_token_lt hs ha htl ho
    obtain rfl := ha.eq_of_slot hs.directory (Append.mem_spans_of_tail htl) hsp (hdiv ▸ hslot)
    exact lt_of_lt_of_le hlt (Nat.le_add_right ..)
  · obtain ⟨sp', hsp', hcovers', rfl⟩ := (place_iff ha hb hlow (by omega)).mp ⟨h, hplace⟩
    rw [address_div hs ha hsp' hcovers'] at hslot
    obtain rfl := ha.eq_of_slot hs.directory hsp' hsp hslot
    unfold Span.Covers at hcovers hcovers'
    unfold Span.address
    omega

/-- **The first token of a released page.**  It is rejected if and only if some
token of its page is rejected and none is kept. -/
theorem rejectedAt_page_iff (hs : s.Inv) (ha : s.AppendOk a) (hle : accepted ≤ a.count)
    (hn : 0 < n) (hdvd : n ∣ s.config.blockTokens) :
    a.RejectedAt accepted (page * n) ↔
      (∃ x, a.RejectedAt accepted x ∧ x / n = page) ∧
        ∀ y, s.KeptAt a accepted y → y / n ≠ page := by
  have hb := hs.block_pos
  have hpage : page * n / n = page := Nat.mul_div_cancel _ hn
  constructor
  · intro hrejected
    refine ⟨⟨_, hrejected, hpage⟩, ?_⟩
    intro y hkept hy
    have hlt := lt_of_kept hs ha hle hkept hrejected (div_eq_of_page hdvd (hy.trans hpage.symm))
    have hge := Nat.div_mul_le_self y n
    rw [hy] at hge
    exact absurd hlt (not_lt.mpr hge)
  · rintro ⟨⟨x, hrejected, hx⟩, hnone⟩
    obtain ⟨sp, hsp, p, hp, hcovers, rfl⟩ := (rejectedAt_iff ha hb).mp hrejected
    obtain ⟨offset, hat⟩ := ha.span hb hs.directory hsp
    have hfront : page * n ≤ sp.address p := by
      rw [← hx]
      exact Nat.div_mul_le_self _ _
    have hslot : sp.handle.slot * s.config.blockTokens ≤ page * n := by
      rw [← address_div hs ha hsp hcovers, ← div_eq_of_page hdvd (hpage.trans hx.symm)]
      exact Nat.div_mul_le_self _ _
    have hstorage := hat.storageBegin
    unfold Span.Covers at hcovers
    unfold Span.address at hfront
    rcases Nat.lt_or_ge (page * n) sp.storageBegin with hbefore | hin
    · -- The page begins with a token that the tail's block had.
      have htl := hat.tail (by omega)
      obtain ⟨htokens, horigin⟩ := hat.tokens sp htl rfl
      refine absurd hpage (hnone _ (.inl ⟨sp, htl, page * n - sp.handle.slot * s.config.blockTokens,
        by omega, ?_⟩))
      rw [horigin]
      omega
    · have hcovers' : sp.Covers (sp.historyBegin + (page * n - sp.storageBegin)) := by
        unfold Span.Covers
        omega
      have haddress : sp.address (sp.historyBegin + (page * n - sp.storageBegin)) = page * n := by
        unfold Span.address
        omega
      obtain ⟨hlow, -, hend⟩ := (ha.partition hb).within hsp
      obtain ⟨h, hplace⟩ := (place_iff ha hb (by omega) (by omega)).mpr
        ⟨sp, hsp, hcovers', haddress⟩
      rcases Nat.lt_or_ge (sp.historyBegin + (page * n - sp.storageBegin)) (a.begin + accepted)
        with haccepted | hlate
      · exact absurd hpage (hnone _ (.inr ⟨_, h, by omega, haccepted, hplace⟩))
      · exact ⟨_, h, hlate, by omega, hplace⟩

end Tokens

/-! ## The result -/

/-- **Rejected pages.**  For every open append and every accepted prefix of it,
the ranges share no page, and their pages are those that hold a rejected token
and no token that is kept. -/
theorem discardedPages {s : State} (hs : machine.Reachable s) {a : Append}
    (happend : s.append = some a) {accepted pageSize : ℕ} (hle : accepted ≤ a.count)
    (hpos : 0 < pageSize) (hdvd : pageSize ∣ s.config.blockTokens) :
    ∃ out, s.discardedPageRanges accepted pageSize = .ok out ∧
      out.Pairwise IndexRange.Disjoint ∧
      ∀ page, IndexRange.Among out page ↔
        (∃ x, a.RejectedAt accepted x ∧ x / pageSize = page) ∧
          ∀ y, s.KeptAt a accepted y → y / pageSize ≠ page := by
  have hinv := machine_invariant.reachable hs
  have ha := hinv.append a happend
  have hb := hinv.block_pos
  have hvalid : ¬ (a.count < accepted ∨ pageSize = 0 ∨ s.config.blockTokens % pageSize ≠ 0) := by
    have hmod := Nat.mod_eq_zero_of_dvd hdvd
    omega
  have hout : s.discardedPageRanges accepted pageSize = .ok (IndexRange.pushAll
      (Append.discardedFrom (a.begin + accepted) pageSize) (Append.discardedTo pageSize)
      (a.spans.filter fun sp => a.begin + accepted < sp.historyBegin + sp.tokenCount)) := by
    unfold State.discardedPageRanges Append.discardedPageRanges
    rw [happend]
    dsimp only
    rw [if_neg hvalid]
    rfl
  refine ⟨_, hout, IndexRange.pairwise_pushAll ?_, ?_⟩
  · -- A page begins in one slot only.
    have hslots := List.pairwise_map.mp (ha.slots_nodup hinv.directory)
    refine List.Pairwise.imp_of_mem ?_ (hslots.filter _)
    intro sp sp' hsp hsp' hne page hfrom hto hfrom' hto'
    rw [List.mem_filter, decide_eq_true_eq] at hsp hsp'
    obtain ⟨p, -, hcovers, heq⟩ := (Span.discarded_iff hpos).mp ⟨hsp.2, hfrom, hto⟩
    obtain ⟨p', -, hcovers', heq'⟩ := (Span.discarded_iff hpos).mp ⟨hsp'.2, hfrom', hto'⟩
    apply hne
    rw [← address_div hinv ha hsp.1 hcovers, ← address_div hinv ha hsp'.1 hcovers', heq, heq']
  · intro page
    rw [← rejectedAt_page_iff hinv ha hle hpos hdvd, rejectedAt_iff ha hb,
      IndexRange.among_pushAll]
    constructor
    · rintro ⟨sp, hsp, hfrom, hto⟩
      rw [List.mem_filter, decide_eq_true_eq] at hsp
      exact ⟨sp, hsp.1, (Span.discarded_iff hpos).mp ⟨hsp.2, hfrom, hto⟩⟩
    · rintro ⟨sp, hsp, hrejected⟩
      obtain ⟨hend, hfrom, hto⟩ := (Span.discarded_iff hpos).mpr hrejected
      refine ⟨sp, ?_, hfrom, hto⟩
      rw [List.mem_filter, decide_eq_true_eq]
      exact ⟨hsp, hend⟩

/-- Seven tokens in two blocks of four, of which the last three and a token of
the tail's block are rejected: page 1 stays for its first token, pages 2 and 3
are released. -/
theorem discardedPages_tail : ∃ s a out, machine.Reachable s ∧ s.append = some a ∧
    s.discardedPageRanges 0 2 = .ok out ∧ out = [⟨2, 2⟩] ∧
    ∀ page, IndexRange.Among out page ↔ (∃ x, a.RejectedAt 0 x ∧ x / 2 = page) ∧
      ∀ y, s.KeptAt a 0 y → y / 2 ≠ page := by
  have hrun : (machine.run (State.initial ⟨4, true⟩ ⟨4, 4⟩)
      [.prepareAppend 3 0, .commitAppend 3, .prepareAppend 4 3]).any
      (fun s => decide (s.append.isSome = true ∧ s.config.blockTokens = 4 ∧
        (s.discardedPageRanges 0 2).toOption = some [⟨2, 2⟩])) = true := by
    decide +kernel
  obtain ⟨s, hs, hstate⟩ := machine.exists_reachable ⟨_, _, validConfig_small, rfl⟩ hrun
  obtain ⟨hopen, hconfig, hranges⟩ := of_decide_eq_true hstate
  obtain ⟨a, happend⟩ := Option.isSome_iff_exists.mp hopen
  obtain ⟨out, hout, -, hpages⟩ := discardedPages hs happend (Nat.zero_le _)
    (by decide : 0 < 2) (by rw [hconfig]; decide)
  rw [hout] at hranges
  exact ⟨s, a, out, hs, happend, hout, Option.some.inj hranges, hpages⟩

end Qw3.Store
