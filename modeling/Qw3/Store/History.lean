import Qw3.Lib.Steps
import Qw3.Store.Speculation

/-!
# The storage of a history interval

`kvmem_repository_storage` maps an interval that may reach from what is committed
into what an open append has prepared.

* `Cut` — spans that cut an interval at the ends of blocks, and only there.
* `State.InBlock` — a span is at the place of its positions in their block.
* `State.repositoryStorage`, `repositoryStorage_spec` — what the executor gets,
  and when it gets it.
-/

namespace Qw3.Store

open Qw3.Repository (KvMemBlockHandle Record Repo Control uint64Max)

/-- The end of the block that a position is in. -/
def blockEnd (b p : ℕ) : ℕ := p - p % b + b

/-- Spans that cut an interval at the ends of blocks, and only there. -/
def Cut (b : ℕ) : ℕ → ℕ → List Span → Prop
  | start, stop, [] => start = stop
  | start, stop, sp :: rest =>
      sp.historyBegin = start ∧ start < stop ∧ start + sp.tokenCount = min stop (blockEnd b start) ∧
        Cut b (start + sp.tokenCount) stop rest

/-- A span with the handle of its lease. -/
abbrev Leased := Span × Option KvMemBlockHandle

/-- What the mapping of an interval throws. -/
inductive StorageError
  | intervalOverflow | noPreparedAppend
  | store (e : StoreError)
  | view (e : ViewError)
  deriving DecidableEq, Repr

/-- The loop body for the spans of the append; the list has its back first. -/
def extendBack (out : List Leased) (e : Leased) : List Leased :=
  match out with
  | back :: rest =>
      if back.1.handle = e.1.handle ∧ back.1.storageBegin + back.1.tokenCount = e.1.storageBegin then
        ({ back.1 with tokenCount := back.1.tokenCount + e.1.tokenCount }, back.2) :: rest
      else e :: back :: rest
  | [] => [e]

namespace State

variable (s : State)

/-- `repository_storage_read`, each span with its lease. -/
def leasedRead (start count : ℕ) : Except StorageError (List Leased) :=
  match s.repositoryStorageRead start count with
  | .ok p => .ok (p.1.map fun sp => (sp, some sp.handle))
  | .error e => .error (.store e)

/-- `storage_write`. -/
def leasedWrite (start count : ℕ) : Except StorageError (List Leased) :=
  match s.storageWrite start count with
  | .ok out => .ok out
  | .error e => .error (.view e)

/-- `kvmem_repository_storage(begin, count)`. -/
def repositoryStorage (start count : ℕ) : Except StorageError (List Leased) :=
  let committed := s.totalTokens
  let stop := start + count
  if uint64Max < stop then throw .intervalOverflow
  else if stop ≤ committed then s.leasedRead start count
  else if s.append = none then throw .noPreparedAppend
  else if committed ≤ start then s.leasedWrite start count
  else do
    let result ← s.leasedRead start (committed - start)
    let tail ← s.leasedWrite committed (stop - committed)
    pure (tail.foldl extendBack result.reverse).reverse

/-- Where the token of a history position is, committed or prepared. -/
def placement : Placement := fun p =>
  if p < s.totalTokens then s.committed p else s.append.bind fun a => a.place p

/-- A committed position can be read: its block is in the directory and can be pinned. -/
def Readable (p : ℕ) : Prop :=
  ∃ e ∈ s.history.entries, e.1 ≤ p ∧ p < e.1 + (s.blocks e.2.slot).nTokens ∧ s.repo.Pinnable e.2

/-- A position has storage: it can be read, or the open append has prepared it. -/
def Stored (p : ℕ) : Prop :=
  if p < s.totalTokens then s.Readable p else ∃ a, s.append = some a ∧ p < a.begin + a.count

/-- The block that begins at a history position: a committed one, or one that is reserved. -/
def BlockAt (c : ℕ) (h : KvMemBlockHandle) : Prop :=
  ((c, h) ∈ s.history.entries ∧ (s.repo.record h.slot).handle = h) ∨
    ∃ a, s.append = some a ∧ ∃ sp ∈ a.reserved, sp.historyBegin = c ∧ sp.handle = h

/-- A span begins at the place of its first position in its block. -/
structure InBlock (sp : Span) : Prop where
  block : s.BlockAt (sp.historyBegin - sp.historyBegin % s.config.blockTokens) sp.handle
  storage : sp.storageBegin =
    sp.handle.slot * s.config.blockTokens + sp.historyBegin % s.config.blockTokens

end State

/-! ## Cuts -/

section Cuts

variable {b c p start stop mid : ℕ} {l m : List Span} {sp : Span}

/-- The position in a block that begins at `c`. -/
theorem sub_mod_of_block (hdvd : b ∣ c) (hle : c ≤ p) (hlt : p < c + b) :
    p - p % b = c ∧ p % b = p - c ∧ blockEnd b p = c + b := by
  obtain ⟨k, rfl⟩ := hdvd
  have hmod : p % b = p - b * k := by
    conv_lhs => rw [← Nat.sub_add_cancel hle, Nat.add_mul_mod_self_left]
    exact Nat.mod_eq_of_lt (by omega)
  unfold blockEnd
  rw [hmod]
  omega

theorem sub_mod_dvd (b p : ℕ) : b ∣ p - p % b := Nat.dvd_sub_mod p

/-- A position is in its block. -/
theorem lt_blockEnd (hb : 0 < b) : p - p % b ≤ p ∧ p < blockEnd b p ∧ blockEnd b p = p - p % b + b := by
  have hmod := Nat.mod_lt p hb
  have hle := Nat.mod_le p b
  unfold blockEnd
  omega

/-- A position that does not begin a block is inside one. -/
theorem lt_blockEnd_of_mod_ne (hle : mid ≤ blockEnd b p) (hmid : mid % b ≠ 0) : mid < blockEnd b p := by
  refine lt_of_le_of_ne hle ?_
  rintro rfl
  exact hmid (Nat.mod_eq_zero_of_dvd (Nat.dvd_add (sub_mod_dvd b p) (dvd_refl b)))

namespace Cut

theorem le (h : Cut b start stop l) : start ≤ stop := by
  cases l with
  | nil => exact le_of_eq h
  | cons sp rest => exact h.2.1.le

/-- A cut is a partition. -/
theorem partition (hb : 0 < b) (h : Cut b start stop l) : Partition start stop l := by
  induction l generalizing start with
  | nil => exact h
  | cons sp rest ih =>
      obtain ⟨hbegin, hlt, hcount, hrest⟩ := h
      have hend := (lt_blockEnd (p := start) hb).2.1
      exact ⟨hbegin, by omega, by omega, ih hrest⟩

/-- What each of the spans is. -/
theorem mem (h : Cut b start stop l) (hsp : sp ∈ l) :
    start ≤ sp.historyBegin ∧ sp.historyBegin < stop ∧
      sp.historyBegin + sp.tokenCount = min stop (blockEnd b sp.historyBegin) := by
  induction l generalizing start with
  | nil => cases hsp
  | cons q rest ih =>
      obtain ⟨hbegin, hlt, hcount, hrest⟩ := h
      rcases List.mem_cons.mp hsp with rfl | hsp
      · rw [hbegin]
        exact ⟨le_rfl, hlt, hcount⟩
      · obtain ⟨hle, hfacts⟩ := ih hrest hsp
        exact ⟨by omega, hfacts⟩

/-- The last span ends the interval, in its block. -/
theorem last (h : Cut b start stop (l ++ [sp])) :
    sp.historyBegin + sp.tokenCount = stop ∧ stop ≤ blockEnd b sp.historyBegin := by
  induction l generalizing start with
  | nil =>
      obtain ⟨hbegin, hlt, hcount, hend⟩ := h
      have hend : start + sp.tokenCount = stop := hend
      rw [hbegin]
      exact ⟨hend, by omega⟩
  | cons q rest ih => exact ih h.2.2.2

/-- A span that is not the first begins a block. -/
theorem mod_eq_zero (hb : 0 < b) {q : Span} (h : Cut b start stop (q :: l)) (hsp : sp ∈ l) :
    sp.historyBegin % b = 0 ∧ blockEnd b q.historyBegin ≤ sp.historyBegin := by
  induction l generalizing start q with
  | nil => cases hsp
  | cons q' rest ih =>
      obtain ⟨hbegin, hlt, hcount, hrest⟩ := h
      have hnext := hrest.1
      have hmore := hrest.2.1
      have hend : start + q.tokenCount = blockEnd b start := by omega
      have hdvd : b ∣ blockEnd b start := Nat.dvd_add (sub_mod_dvd b start) (dvd_refl b)
      rw [hbegin]
      rcases List.mem_cons.mp hsp with rfl | hsp
      · rw [hnext, hend]
        exact ⟨Nat.mod_eq_zero_of_dvd hdvd, le_rfl⟩
      · obtain ⟨hzero, hle⟩ := ih hrest hsp
        have hlt' := (lt_blockEnd (p := q'.historyBegin) hb).2.1
        exact ⟨hzero, by omega⟩

/-- Two cuts that meet where a block begins are one. -/
theorem append (hb : 0 < b) (hl : Cut b start mid l) (hm : Cut b mid stop m) (hmid : mid % b = 0) :
    Cut b start stop (l ++ m) := by
  induction l generalizing start with
  | nil =>
      obtain rfl : start = mid := hl
      exact hm
  | cons sp rest ih =>
      obtain ⟨hbegin, hlt, hcount, hrest⟩ := hl
      have hle := hm.le
      refine ⟨hbegin, by omega, ?_, ih hrest⟩
      -- no block of the first cut reaches beyond the second's beginning
      have hend : blockEnd b start ≤ mid := by
        by_contra hgt
        rw [not_le] at hgt
        obtain ⟨hlow, hhigh, hblock⟩ := lt_blockEnd (p := start) hb
        have hoffset := (sub_mod_of_block (sub_mod_dvd b start) (by omega : start - start % b ≤ mid)
          (by omega)).2.1
        omega
      omega

/-- Where they meet inside a block the spans there are one. -/
theorem merge (hb : 0 < b) {q t : Span} (hl : Cut b start mid (l ++ [q])) (hm : Cut b mid stop (t :: m))
    (hmid : mid % b ≠ 0) :
    Cut b start stop (l ++ { q with tokenCount := q.tokenCount + t.tokenCount } :: m) := by
  induction l generalizing start with
  | nil =>
      obtain ⟨hbegin, hlt, hcount, hend⟩ := hl
      obtain ⟨-, hlt', hcount', hrest⟩ := hm
      have hend : start + q.tokenCount = mid := hend
      obtain ⟨hlow, hhigh, hblock⟩ := lt_blockEnd (p := start) hb
      have hinside : mid < blockEnd b start := lt_blockEnd_of_mod_ne (by omega) hmid
      have hsame := (sub_mod_of_block (sub_mod_dvd b start) (by omega : start - start % b ≤ mid) (by omega)).2.2
      refine ⟨hbegin, by omega, ?_, ?_⟩
      · dsimp only
        omega
      · dsimp only
        rwa [← Nat.add_assoc, hend]
  | cons sp rest ih =>
      obtain ⟨hbegin, hlt, hcount, hrest⟩ := hl
      have hle := hm.le
      refine ⟨hbegin, by omega, ?_, ih hrest⟩
      -- the rest is not empty, so the span ends with its block
      have hmore : start + sp.tokenCount < mid := by
        cases rest with
        | nil => exact hrest.2.1
        | cons q' rest => exact hrest.2.1
      omega

/-- What is left of a cut in a part of its interval is a cut of that. -/
theorem clip (hb : 0 < b) {lo hi : ℕ} (h : Cut b lo hi l) (hstart : start ≤ stop) (hstop : stop ≤ hi) :
    Cut b (min stop (max lo start)) stop (l.filterMap (Append.clip start stop)) := by
  induction l generalizing lo with
  | nil =>
      have heq : lo = hi := h
      show min stop (max lo start) = stop
      omega
  | cons sp rest ih =>
      obtain ⟨hbegin, hlt, hcount, hrest⟩ := h
      have hrest := ih hrest
      by_cases hempty : min stop (sp.historyBegin + sp.tokenCount) ≤ max start sp.historyBegin
      · have hclip : Append.clip start stop sp = none := if_pos hempty
        rw [List.filterMap_cons_none hclip]
        have heq : min stop (max (lo + sp.tokenCount) start) = min stop (max lo start) := by omega
        rwa [heq] at hrest
      · have hclip : Append.clip start stop sp = some ⟨max start sp.historyBegin,
            sp.storageBegin + (max start sp.historyBegin - sp.historyBegin),
            min stop (sp.historyBegin + sp.tokenCount) - max start sp.historyBegin, sp.handle⟩ :=
          if_neg hempty
        rw [List.filterMap_cons_some hclip]
        have heq : min stop (max (lo + sp.tokenCount) start) = min stop (max lo start) +
            (min stop (sp.historyBegin + sp.tokenCount) - max start sp.historyBegin) := by omega
        rw [heq] at hrest
        obtain ⟨hlow, hhigh, hblock⟩ := lt_blockEnd (p := lo) hb
        have hsame := (sub_mod_of_block (sub_mod_dvd b lo)
          (by omega : lo - lo % b ≤ min stop (max lo start)) (by omega)).2.2
        exact ⟨by dsimp only; omega, by omega, by dsimp only; omega, hrest⟩

end Cut

/-- New blocks cut their interval. -/
theorem Laid.cut (hb : 0 < b) (h : Laid b stop start l) (hdvd : b ∣ start) (hle : start ≤ stop) :
    Cut b start stop l := by
  induction l generalizing start with
  | nil => exact Nat.le_antisymm hle h
  | cons sp rest ih =>
      obtain ⟨hlt, hbegin, -, hcount, hrest⟩ := h
      have hend := (sub_mod_of_block hdvd le_rfl (by omega : start < start + b)).2.2
      refine ⟨hbegin, hlt, by omega, ?_⟩
      rcases Nat.le_total (start + b) stop with hfull | hlast
      · have hall : sp.tokenCount = b := by omega
        rw [hall]
        exact ih hrest (Nat.dvd_add hdvd (dvd_refl b)) hfull
      · have hstop : start + sp.tokenCount = stop := by omega
        rw [hstop]
        cases rest with
        | nil => rfl
        | cons sp' rest => exact absurd hrest.1 (not_lt.mpr hlast)

end Cuts

/-! ## The read -/

section Read

variable {s : State} {G : Placement} {limit stop covered : ℕ} {l : List (ℕ × KvMemBlockHandle)} {r : Repo}

theorem State.Directory.slot_ne (hs : s.Directory G limit) {e e' : ℕ × KvMemBlockHandle}
    (he : e ∈ s.history.entries) (he' : e' ∈ s.history.entries) (hlt : e.1 < e'.1) : e'.2.slot ≠ e.2.slot := by
  intro hslot
  rw [hs.eq_of_slot he' he hslot] at hlt
  exact lt_irrefl _ hlt

/-- The loop stops where the next entry begins later. -/
theorem readSpans_gap (hgap : ∀ e ∈ l, covered < e.1) : (s.readSpans stop l covered r).2.1 = covered := by
  cases l with
  | nil => rfl
  | cons e rest =>
      obtain ⟨first, h⟩ := e
      have hlt : covered < first := hgap _ List.mem_cons_self
      unfold State.readSpans
      split_ifs
      · split
        next => rfl
        next => rw [if_pos (.inl hlt)]
      · rfl

/-- A pin of another slot changes nothing for an entry. -/
theorem pinnable_pinned {r' : Repo} {h h' : KvMemBlockHandle} {m : Multiset KvMemBlockHandle}
    (hpin : r.tryPin h = some r') (hne : h'.slot ≠ h.slot) :
    ({ r' with leases := m } : Repo).Pinnable h' ↔ r.Pinnable h' := by
  obtain ⟨-, c, rfl, -, -⟩ := Repo.tryPin_eq_some hpin
  unfold Repo.Pinnable Repo.phase Repo.refs Repo.record Repo.setControl
  simp [Function.update_of_ne hne]

/-- **A read that covers its interval** cuts it at the ends of blocks. -/
theorem readSpans_cut (hs : s.Directory G limit)
    (hl : ∀ e ∈ l, e ∈ s.history.entries) (hsorted : l.Pairwise fun e e' => e.1 < e'.1)
    (hpins : ∀ e ∈ l, r.Pinnable e.2 ↔ s.repo.Pinnable e.2) (hle : covered ≤ stop)
    (hall : (s.readSpans stop l covered r).2.1 = stop) :
    Cut s.config.blockTokens covered stop (s.readSpans stop l covered r).1 ∧
      (∀ sp ∈ (s.readSpans stop l covered r).1, s.InBlock sp) ∧
      ∀ p, covered ≤ p → p < stop → s.Readable p := by
  induction l generalizing covered r with
  | nil =>
      have heq : covered = stop := hall
      exact ⟨heq, List.forall_mem_nil _, fun p hp hlt => by omega⟩
  | cons e rest ih =>
      obtain ⟨first, h⟩ := e
      have hentry := hs.entry _ (hl _ List.mem_cons_self)
      rw [List.pairwise_cons] at hsorted
      unfold State.readSpans at hall ⊢
      by_cases hlt : covered < stop
      · rw [if_pos hlt] at hall ⊢
        cases hpin : r.tryPin h with
        | none =>
            rw [hpin] at hall
            exact absurd hall hlt.ne
        | some r' =>
            rw [hpin] at hall
            dsimp only at hall ⊢
            by_cases hgap : covered < first ∨ first + (s.blocks h.slot).nTokens ≤ covered
            · rw [if_pos hgap] at hall
              exact absurd hall hlt.ne
            rw [if_neg hgap] at hall ⊢
            rw [not_or, not_lt, not_le] at hgap
            obtain ⟨hfirst, hlast⟩ := hgap
            have hpinnable : s.repo.Pinnable h := by
              refine (hpins _ List.mem_cons_self).mp (Repo.tryPin_isSome.mp ?_)
              rw [hpin]
              rfl
            have hpins' : ∀ e ∈ rest, ({ r' with leases := h ::ₘ r'.leases } : Repo).Pinnable e.2 ↔
                s.repo.Pinnable e.2 := by
              intro e he
              exact (pinnable_pinned hpin (hs.slot_ne (hl _ List.mem_cons_self)
                (hl e (List.mem_cons_of_mem _ he)) (hsorted.1 e he))).trans (hpins e (List.mem_cons_of_mem _ he))
            obtain ⟨hcut, hin, hreadable⟩ := ih (fun e he => hl e (List.mem_cons_of_mem _ he)) hsorted.2 hpins'
              (by omega) hall
            have hsize := hentry.nTokens_le
            dsimp only at hsize
            obtain ⟨hbegin, hoffset, hend⟩ :=
              sub_mod_of_block (Nat.dvd_of_mod_eq_zero hentry.aligned) hfirst (by omega)
            -- a block that is not full is the last one, or the loop would have stopped
            have hfull : stop ≤ first + (s.blocks h.slot).nTokens ∨
                (s.blocks h.slot).nTokens = s.config.blockTokens := by
              by_contra hshort
              rw [not_or, not_le] at hshort
              rw [readSpans_gap] at hall
              · omega
              · intro e he
                have hapart := hs.apart (hl _ List.mem_cons_self) (hl e (List.mem_cons_of_mem _ he)) (hsorted.1 e he)
                dsimp only at hapart
                omega
            refine ⟨⟨rfl, hlt, ?_, hcut⟩, List.forall_mem_cons.mpr ⟨⟨.inl ⟨?_, hpinnable.2.1⟩, ?_⟩, hin⟩, ?_⟩
            · dsimp only
              omega
            · dsimp only
              rw [hbegin]
              exact hl _ List.mem_cons_self
            · dsimp only
              rw [hoffset, hentry.origin]
            · intro p hp hstop
              by_cases hin : p < first + (s.blocks h.slot).nTokens
              · exact ⟨_, hl _ List.mem_cons_self, by dsimp only; omega, hin, hpinnable⟩
              · exact hreadable p (by omega) hstop
      · rw [if_neg hlt]
        exact ⟨by show covered = stop; omega, List.forall_mem_nil _, fun p hp hlt => by omega⟩

/-- **A read whose positions can all be read** covers its interval. -/
theorem readSpans_covers (hs : s.Directory G limit) (hl : ∀ e ∈ l, e ∈ s.history.entries)
    (hsorted : l.Pairwise fun e e' => e.1 < e'.1) (hpins : ∀ e ∈ l, r.Pinnable e.2 ↔ s.repo.Pinnable e.2)
    (hle : covered ≤ stop) (hnext : ∀ e ∈ l, covered < e.1 + (s.blocks e.2.slot).nTokens)
    (hall : ∀ p, covered ≤ p → p < stop →
      ∃ e ∈ l, e.1 ≤ p ∧ p < e.1 + (s.blocks e.2.slot).nTokens ∧ s.repo.Pinnable e.2) :
    (s.readSpans stop l covered r).2.1 = stop := by
  induction l generalizing covered r with
  | nil =>
      by_contra hne
      have heq : covered ≠ stop := hne
      obtain ⟨e, he, -⟩ := hall covered le_rfl (by omega)
      cases he
  | cons e rest ih =>
      obtain ⟨first, h⟩ := e
      rw [List.pairwise_cons] at hsorted
      have hlast := hnext _ List.mem_cons_self
      unfold State.readSpans
      by_cases hlt : covered < stop
      · rw [if_pos hlt]
        -- the entry of the next position is the first of the list
        obtain ⟨e, he, hfirst, hin, hpinnable⟩ := hall covered le_rfl hlt
        obtain rfl : e = (first, h) := by
          rcases List.mem_cons.mp he with rfl | he
          · rfl
          · have hdisjoint := hs.disjoint (hl _ List.mem_cons_self) (hl _ (List.mem_cons_of_mem _ he))
              (hsorted.1 e he)
            dsimp only at hdisjoint hlast
            omega
        obtain ⟨r', hpin⟩ := Option.isSome_iff_exists.mp
          (Repo.tryPin_isSome.mpr ((hpins _ List.mem_cons_self).mpr hpinnable))
        rw [hpin]
        dsimp only at hfirst hlast ⊢
        rw [if_neg (by omega)]
        rcases Nat.le_total stop (first + (s.blocks h.slot).nTokens) with hstop | hstop
        · -- the interval ends in this block
          have hend : covered + (min (first + (s.blocks h.slot).nTokens) stop - covered) = stop := by omega
          rw [hend]
          cases rest with
          | nil => rfl
          | cons e' rest =>
              unfold State.readSpans
              rw [if_neg (lt_irrefl _)]
        · have hend : covered + (min (first + (s.blocks h.slot).nTokens) stop - covered) =
              first + (s.blocks h.slot).nTokens := by omega
          rw [hend]
          have hafter : ∀ e ∈ rest, first + (s.blocks h.slot).nTokens ≤ e.1 := fun e he =>
            hs.disjoint (hl _ List.mem_cons_self) (hl e (List.mem_cons_of_mem _ he)) (hsorted.1 e he)
          refine ih (fun e he => hl e (List.mem_cons_of_mem _ he)) hsorted.2 ?_ hstop ?_ ?_
          · intro e he
            exact (pinnable_pinned hpin (hs.slot_ne (hl _ List.mem_cons_self)
              (hl e (List.mem_cons_of_mem _ he)) (hsorted.1 e he))).trans (hpins e (List.mem_cons_of_mem _ he))
          · intro e he
            have hpos := (hs.entry e (hl e (List.mem_cons_of_mem _ he))).nTokens_pos
            have hle := hafter e he
            omega
          · intro p hp hstop
            obtain ⟨e, he, hlow, hhigh, hpin⟩ := hall p (by omega) hstop
            rcases List.mem_cons.mp he with rfl | he
            · dsimp only at hhigh
              omega
            · exact ⟨e, he, hlow, hhigh, hpin⟩
      · rw [if_neg hlt]
        show covered = stop
        omega

variable {start count : ℕ}

theorem repositoryStorageRead_cut (hs : s.Directory G limit) {spans : List Span}
    (hread : s.repositoryStorageRead start count = .ok (spans, r)) :
    Cut s.config.blockTokens start (start + count) spans ∧ (∀ sp ∈ spans, s.InBlock sp) ∧
      ∀ p, start ≤ p → p < start + count → s.Readable p := by
  unfold State.repositoryStorageRead at hread
  dsimp only at hread
  split_ifs at hread with hoverflow hzero hmissing
  · obtain ⟨rfl, -⟩ := Prod.mk.inj (Except.ok.inj hread)
    exact ⟨by rw [hzero]; rfl, List.forall_mem_nil _, fun p hp hlt => by omega⟩
  · obtain ⟨rfl, -⟩ := Prod.mk.inj (Except.ok.inj hread)
    rw [not_not] at hmissing
    exact readSpans_cut hs (fun e he => OrdMap.mem_of_mem_floor he) (OrdMap.floor_sorted _ _)
      (fun _ _ => Iff.rfl) (Nat.le_add_right ..) hmissing

theorem repositoryStorageRead_ok (hs : s.Directory G limit) (hmax : start + count ≤ uint64Max)
    (hall : ∀ p, start ≤ p → p < start + count → s.Readable p) :
    ∃ out, s.repositoryStorageRead start count = .ok out := by
  unfold State.repositoryStorageRead
  rw [if_neg (not_lt.mpr hmax)]
  by_cases hzero : count = 0
  · rw [if_pos hzero]
    exact ⟨_, rfl⟩
  rw [if_neg hzero]
  obtain ⟨e, he, hle, hin, -⟩ := hall start le_rfl (by omega)
  -- an entry below this one ends before it
  have hbelow : ∀ e' ∈ s.history.entries, e'.1 < e.1 → e'.1 + (s.blocks e'.2.slot).nTokens ≤ e.1 :=
    fun e' he' hlt => hs.disjoint he' he hlt
  have hfloor : s.history.floor start = s.history.lowerBound e.1 := by
    refine OrdMap.floor_eq he hle fun e' he' hle' => ?_
    by_contra hlt
    have := hs.disjoint he he' (not_le.mp hlt)
    omega
  have hcovers : (s.readSpans (start + count) (s.history.floor start) start s.repo).2.1 = start + count := by
    rw [hfloor]
    refine readSpans_covers hs (fun e' he' => (OrdMap.mem_lowerBound.mp he').1)
      (OrdMap.lowerBound_sorted _ _) (fun _ _ => Iff.rfl) (Nat.le_add_right ..) ?_ ?_
    · intro e' he'
      obtain ⟨he', hge⟩ := OrdMap.mem_lowerBound.mp he'
      rcases hge.eq_or_lt with heq | hlt
      · rwa [← OrdMap.eq_of_mem he he' heq]
      · have hdisjoint := hs.disjoint he he' hlt
        omega
    · intro p hp hstop
      obtain ⟨e', he', hlow, hhigh, hpin⟩ := hall p hp hstop
      refine ⟨e', OrdMap.mem_lowerBound.mpr ⟨he', ?_⟩, hlow, hhigh, hpin⟩
      by_contra hlt
      have := hbelow e' he' (not_le.mp hlt)
      omega
  dsimp only
  rw [if_neg (not_not.mpr hcovers)]
  exact ⟨_, rfl⟩

end Read

/-! ## The write view -/

section Write

variable {s : State} {a : Append} {start count p : ℕ}

/-- A position of an append is in a block of its own place. -/
theorem State.AppendOk.inBlock (ha : s.AppendOk a) (happend : s.append = some a) (hb : 0 < s.config.blockTokens)
    {sp : Span} (hsp : sp ∈ a.spans) (hp : sp.Covers p) :
    s.BlockAt (p - p % s.config.blockTokens) sp.handle ∧
      sp.storageBegin + (p - sp.historyBegin) = sp.handle.slot * s.config.blockTokens + p % s.config.blockTokens := by
  obtain ⟨hlow, hhigh⟩ := hp
  unfold Append.spans at hsp
  rcases List.mem_append.mp hsp with hsp | hsp
  · have htail := ha.tail_some sp (by simpa using hsp)
    have htake := add_tailTake hb a.begin a.count
    have hfirst : firstBlock s.config.blockTokens a.begin =
        a.begin - a.begin % s.config.blockTokens + s.config.blockTokens := if_neg htail.offset
    have hmod := Nat.mod_le a.begin s.config.blockTokens
    rw [htail.historyBegin] at hlow hhigh ⊢
    rw [htail.tokenCount] at hhigh
    obtain ⟨hbegin, hoffset, -⟩ := sub_mod_of_block (sub_mod_dvd s.config.blockTokens a.begin)
      (by omega : a.begin - a.begin % s.config.blockTokens ≤ p) (by omega)
    refine ⟨.inl ⟨?_, htail.record⟩, ?_⟩
    · rw [hbegin]
      exact htail.entry
    · rw [htail.storageBegin, hoffset]
      omega
  · obtain ⟨-, -, hdvd, hstorage, hcount⟩ := ha.laid.mem (firstBlock_dvd _ _) hsp
    obtain ⟨hbegin, hoffset, -⟩ := sub_mod_of_block hdvd hlow (by omega)
    refine ⟨.inr ⟨a, happend, sp, hsp, hbegin.symm, rfl⟩, ?_⟩
    rw [hstorage, hoffset]

/-- The spans of an append cut its interval. -/
theorem State.AppendOk.cut (ha : s.AppendOk a) (hb : 0 < s.config.blockTokens) :
    Cut s.config.blockTokens a.begin (a.begin + a.count) a.spans := by
  have hpos := ha.count_pos
  have hlaid := ha.laid
  have hdvd := firstBlock_dvd s.config.blockTokens a.begin
  unfold Append.spans
  cases htail : a.tail with
  | none =>
      have hfirst : firstBlock s.config.blockTokens a.begin = a.begin := if_pos (ha.tail_none htail)
      rw [hfirst] at hlaid hdvd
      exact hlaid.cut hb hdvd (Nat.le_add_right ..)
  | some sp =>
      have hsp := ha.tail_some sp htail
      have htake := add_tailTake hb a.begin a.count
      have hfirst : firstBlock s.config.blockTokens a.begin = blockEnd s.config.blockTokens a.begin :=
        if_neg hsp.offset
      rw [← hsp.tokenCount] at htake
      refine ⟨hsp.historyBegin, by omega, by rw [htake, hfirst], ?_⟩
      rw [htake]
      rcases Nat.le_total (firstBlock s.config.blockTokens a.begin) (a.begin + a.count) with hle | hle
      · rw [min_eq_right hle]
        exact hlaid.cut hb hdvd hle
      · rw [min_eq_left hle]
        show Cut _ (a.begin + a.count) (a.begin + a.count) a.reserved
        rw [ha.reserved_eq_nil hle]
        rfl

theorem storageWrite_cut (ha : s.AppendOk a) (happend : s.append = some a) (hb : 0 < s.config.blockTokens)
    {out : List Leased} (hwrite : s.storageWrite start count = .ok out) :
    a.begin ≤ start ∧ start + count ≤ a.begin + a.count ∧
      Cut s.config.blockTokens start (start + count) (out.map Prod.fst) ∧
      ∀ e ∈ out, s.InBlock e.1 ∧ e.2 = some e.1.handle := by
  have hview : s.storageWrite start count = a.storageWrite start count := by
    unfold State.storageWrite
    rw [happend]
  rw [hview] at hwrite
  have hrange : a.begin ≤ start ∧ start + count ≤ a.begin + a.count := by
    unfold Append.storageWrite at hwrite
    by_contra hnot
    rw [if_pos (by omega)] at hwrite
    cases hwrite
  obtain ⟨out', hout, hpartition, heach⟩ := storageWrite_spec ha hb hrange.1 hrange.2
  obtain rfl := Except.ok.inj (hwrite.symm.trans hout)
  refine ⟨hrange.1, hrange.2, ?_, ?_⟩
  · unfold Append.storageWrite at hwrite
    rw [if_neg (by omega)] at hwrite
    by_cases hzero : count = 0
    · rw [if_pos hzero] at hwrite
      obtain rfl := Except.ok.inj hwrite
      rw [hzero]
      rfl
    · rw [if_neg hzero] at hwrite
      obtain rfl := Except.ok.inj hwrite
      have hclip := (ha.cut hb).clip hb (Nat.le_add_right start count) hrange.2
      have heq : min (start + count) (max a.begin start) = start := by omega
      rw [heq] at hclip
      rwa [Append.map_fst_clipped]
  · intro e he
    obtain ⟨hlease, sp, hsp, hhandle, htokens⟩ := heach e he
    have hpos := (hpartition.within (List.mem_map_of_mem he)).2.1
    obtain ⟨hcovers, hstorage⟩ := htokens 0 hpos
    obtain ⟨hblock, hplace⟩ := ha.inBlock happend hb hsp hcovers
    rw [hhandle] at hblock hplace
    exact ⟨⟨hblock, by simpa using hstorage.trans hplace⟩, hlease⟩

end Write

/-! ## The storage of an interval -/

namespace State.Inv

variable {s : State} {start count p c c' : ℕ} {h h' : KvMemBlockHandle} {sp sp' : Span}

/-- A block that is reserved begins beyond every committed one, and its slot has none that is there. -/
theorem reserved_apart (hs : s.Inv) {a : Append} (happend : s.append = some a) (hsp : sp ∈ a.reserved)
    (hc : (c, h) ∈ s.history.entries) :
    c < sp.historyBegin ∧ ((s.repo.record h.slot).handle = h → h.slot ≠ sp.handle.slot) := by
  have ha := hs.append a happend
  have hlow := (ha.laid.mem (firstBlock_dvd _ _) hsp).1
  have hfirst := le_firstBlock hs.block_pos a.begin
  have hkey := hs.directory.key_lt hc
  have hbegin := ha.begin_eq
  refine ⟨by dsimp only at hkey; omega, fun hrecord hslot => ?_⟩
  have hreserved := ha.reserved sp hsp
  have hgeneration := (hs.directory.entry _ hc).generation
  have hlt := hreserved.generation
  rw [hslot, hreserved.record] at hrecord
  dsimp only at hrecord hgeneration
  rw [hslot, ← hrecord] at hgeneration
  omega

/-- A position is the beginning of one block. -/
theorem blockAt_unique (hs : s.Inv) (hc : s.BlockAt c h) (hc' : s.BlockAt c h') : h = h' := by
  rcases hc with ⟨hc, -⟩ | ⟨a, happend, sp, hsp, rfl, rfl⟩
  · rcases hc' with ⟨hc', -⟩ | ⟨a, happend, sp, hsp, rfl, rfl⟩
    · exact congrArg Prod.snd (OrdMap.eq_of_mem hc hc' rfl)
    · exact absurd (hs.reserved_apart happend hsp hc).1 (lt_irrefl _)
  · rcases hc' with ⟨hc', -⟩ | ⟨a', happend', sp', hsp', hbegin, rfl⟩
    · exact absurd (hs.reserved_apart happend hsp hc').1 (lt_irrefl _)
    · obtain rfl := Option.some.inj (happend.symm.trans happend')
      have ha := hs.append a happend
      have hdvd := firstBlock_dvd s.config.blockTokens a.begin
      -- both cover their first position
      have hfind : ∀ q ∈ a.reserved, (a.reserved.find? fun r => r.historyBegin ≤ q.historyBegin ∧
          q.historyBegin < r.historyBegin + r.tokenCount) = some q := by
        intro q hq
        obtain ⟨-, hlt, -, -, hcount⟩ := ha.laid.mem hdvd hq
        have hpos := hs.block_pos
        exact ha.laid.find hdvd hq ⟨le_rfl, by omega⟩
      have hsame := hfind sp' hsp'
      rw [hbegin, hfind sp hsp] at hsame
      rw [Option.some.inj hsame]

/-- A slot has one block. -/
theorem blockAt_slot (hs : s.Inv) (hc : s.BlockAt c h) (hc' : s.BlockAt c' h') (hslot : h.slot = h'.slot) :
    c = c' := by
  rcases hc with ⟨hc, hrecord⟩ | ⟨a, happend, sp, hsp, rfl, rfl⟩
  · rcases hc' with ⟨hc', -⟩ | ⟨a, happend, sp, hsp, rfl, rfl⟩
    · exact congrArg Prod.fst (hs.directory.eq_of_slot hc hc' hslot)
    · exact absurd hslot ((hs.reserved_apart happend hsp hc).2 hrecord)
  · rcases hc' with ⟨hc', hrecord⟩ | ⟨a', happend', sp', hsp', rfl, rfl⟩
    · exact absurd hslot.symm ((hs.reserved_apart happend hsp hc').2 hrecord)
    · obtain rfl := Option.some.inj (happend.symm.trans happend')
      rw [List.inj_on_of_nodup_map (hs.append a happend).nodup hsp hsp' hslot]

/-- **A position that has storage** is in its block, at its offset in it. -/
theorem placement_of_stored (hs : s.Inv) (hp : s.Stored p) :
    ∃ h, s.BlockAt (p - p % s.config.blockTokens) h ∧
      s.placement p = some (h, h.slot * s.config.blockTokens + p % s.config.blockTokens) := by
  unfold State.Stored at hp
  unfold State.placement
  split_ifs at hp ⊢ with hcommitted
  · obtain ⟨⟨k, h⟩, he, hle, hlt, hpin⟩ := hp
    have hentry := hs.directory.entry _ he
    have hsize := hentry.nTokens_le
    dsimp only at hle hlt hsize
    obtain ⟨hbegin, hoffset, -⟩ := sub_mod_of_block (Nat.dvd_of_mod_eq_zero hentry.aligned) hle (by omega)
    refine ⟨h, .inl ⟨by rwa [hbegin], hpin.2.1⟩, ?_⟩
    have hplaced := hentry.placed (p - k) (by dsimp only; omega)
    dsimp only at hplaced
    rwa [Nat.add_sub_cancel' hle, ← hoffset] at hplaced
  · obtain ⟨a, happend, hlt⟩ := hp
    have ha := hs.append a happend
    have hbegin := ha.begin_eq
    obtain ⟨sp, hsp, hcovers⟩ := (ha.partition hs.block_pos).covers (by omega) hlt
    obtain ⟨hblock, hplace⟩ := ha.inBlock happend hs.block_pos hsp hcovers
    refine ⟨sp.handle, hblock, ?_⟩
    rw [happend, Option.bind_some, ha.place hs.block_pos hsp hcovers, hplace]

/-- The tokens of a span of a cut are at its places. -/
theorem placedBy (hs : s.Inv) {stop : ℕ} {l : List Span} (hcut : Cut s.config.blockTokens start stop l)
    (hstored : ∀ p, start ≤ p → p < stop → s.Stored p) (hin : s.InBlock sp) (hsp : sp ∈ l) :
    sp.PlacedBy s.placement := by
  intro o ho
  obtain ⟨hlow, hhigh, hcount⟩ := hcut.mem hsp
  obtain ⟨hbegin, hlt, hend⟩ := lt_blockEnd (p := sp.historyBegin) hs.block_pos
  obtain ⟨h, hblock, hplace⟩ := hs.placement_of_stored (hstored (sp.historyBegin + o) (by omega) (by omega))
  obtain ⟨hsame, hoffset, -⟩ := sub_mod_of_block (sub_mod_dvd s.config.blockTokens sp.historyBegin)
    (by omega : sp.historyBegin - sp.historyBegin % s.config.blockTokens ≤ sp.historyBegin + o) (by omega)
  rw [hsame] at hblock
  obtain rfl := hs.blockAt_unique hblock hin.block
  have hmod := Nat.mod_le sp.historyBegin s.config.blockTokens
  rw [hplace, hin.storage, hoffset]
  congr 2
  omega

/-- No slot has two spans of a cut. -/
theorem slots_nodup (hs : s.Inv) {stop : ℕ} {l : List Span} (hcut : Cut s.config.blockTokens start stop l)
    (hin : ∀ sp ∈ l, s.InBlock sp) : (l.map fun sp => sp.handle.slot).Nodup := by
  induction l generalizing start with
  | nil => exact List.nodup_nil
  | cons q rest ih =>
      rw [List.forall_mem_cons] at hin
      refine List.nodup_cons.mpr ⟨?_, ih hcut.2.2.2 hin.2⟩
      intro hmem
      obtain ⟨sp, hsp, hslot⟩ := List.mem_map.mp hmem
      have hcells := hs.blockAt_slot (hin.2 sp hsp).block hin.1.block hslot
      obtain ⟨hzero, hle⟩ := hcut.mod_eq_zero hs.block_pos hsp
      obtain ⟨hbegin, hlt, hend⟩ := lt_blockEnd (p := q.historyBegin) hs.block_pos
      omega

end State.Inv

/-! ## What the executor gets -/

section Storage

variable {s : State} {start count : ℕ} {out : List Leased}

theorem leasedRead_cut (hs : s.Inv) (hread : s.leasedRead start count = .ok out) :
    Cut s.config.blockTokens start (start + count) (out.map Prod.fst) ∧
      (∀ e ∈ out, s.InBlock e.1 ∧ e.2 = some e.1.handle) ∧ ∀ p, start ≤ p → p < start + count → s.Readable p := by
  unfold State.leasedRead at hread
  cases h : s.repositoryStorageRead start count with
  | error e =>
      rw [h] at hread
      cases hread
  | ok r =>
      rw [h] at hread
      obtain rfl := Except.ok.inj hread
      obtain ⟨hcut, hin, hreadable⟩ := repositoryStorageRead_cut hs.directory h
      refine ⟨?_, ?_, hreadable⟩
      · rw [List.map_map]
        exact (List.map_id r.1).symm ▸ hcut
      rintro _ he
      obtain ⟨sp, hsp, rfl⟩ := List.mem_map.mp he
      exact ⟨hin sp hsp, rfl⟩

theorem leasedWrite_cut (hs : s.Inv) (hwrite : s.leasedWrite start count = .ok out) :
    ∃ a, s.append = some a ∧ s.totalTokens ≤ start ∧ start + count ≤ a.begin + a.count ∧
      Cut s.config.blockTokens start (start + count) (out.map Prod.fst) ∧
      ∀ e ∈ out, s.InBlock e.1 ∧ e.2 = some e.1.handle := by
  unfold State.leasedWrite at hwrite
  cases h : s.storageWrite start count with
  | error e =>
      rw [h] at hwrite
      cases hwrite
  | ok out' =>
      rw [h] at hwrite
      obtain rfl := Except.ok.inj hwrite
      cases happend : s.append with
      | none =>
          unfold State.storageWrite at h
          rw [happend] at h
          cases h
      | some a =>
          have ha := hs.append a happend
          obtain ⟨hlow, hhigh, hcut, hin⟩ := storageWrite_cut ha happend hs.block_pos h
          exact ⟨a, rfl, ha.begin_eq ▸ hlow, hhigh, hcut, hin⟩

/-- Spans of different blocks are not joined. -/
theorem foldl_extendBack {l : List Leased} (hl : l.Pairwise fun e e' => e.1.handle ≠ e'.1.handle)
    (hout : ∀ back ∈ out.head?, ∀ e ∈ l, back.1.handle ≠ e.1.handle) :
    l.foldl extendBack out = l.reverse ++ out := by
  induction l generalizing out with
  | nil => rfl
  | cons e rest ih =>
      rw [List.pairwise_cons] at hl
      have hpush : extendBack out e = e :: out := by
        cases out with
        | nil => rfl
        | cons back out => exact if_neg fun h => hout back rfl e List.mem_cons_self h.1
      rw [List.foldl_cons, hpush, ih hl.2, List.reverse_cons, List.append_assoc]
      · rfl
      · intro back hback e' he'
        obtain rfl : e = back := Option.some.inj hback
        exact hl.1 e' he'

/-- The spans of a cut have different handles. -/
theorem handles_ne (hs : s.Inv) {stop : ℕ} (hcut : Cut s.config.blockTokens start stop (out.map Prod.fst))
    (hin : ∀ e ∈ out, s.InBlock e.1) : out.Pairwise fun e e' => e.1.handle ≠ e'.1.handle := by
  have hslots := hs.slots_nodup hcut (by
    intro sp hsp
    obtain ⟨e, he, rfl⟩ := List.mem_map.mp hsp
    exact hin e he)
  rw [List.Nodup, List.pairwise_map, List.pairwise_map] at hslots
  exact hslots.imp fun hne heq => hne (congrArg KvMemBlockHandle.slot heq)

/-- **What is read and what is written are joined** where they meet inside a block. -/
theorem joined_cut (hs : s.Inv) {mid stop : ℕ} {result tail : List Leased}
    (hresult : Cut s.config.blockTokens start mid (result.map Prod.fst))
    (htail : Cut s.config.blockTokens mid stop (tail.map Prod.fst)) (hne : start < mid) (hne' : mid < stop)
    (hin : ∀ e ∈ result, s.InBlock e.1 ∧ e.2 = some e.1.handle)
    (hin' : ∀ e ∈ tail, s.InBlock e.1 ∧ e.2 = some e.1.handle) :
    Cut s.config.blockTokens start stop ((tail.foldl extendBack result.reverse).reverse.map Prod.fst) ∧
      ∀ e ∈ (tail.foldl extendBack result.reverse).reverse, s.InBlock e.1 ∧ e.2 = some e.1.handle := by
  rcases List.eq_nil_or_concat' result with rfl | ⟨front, back, rfl⟩
  · have heq : start = mid := hresult
    exact absurd heq hne.ne
  cases tail with
  | nil =>
      have heq : mid = stop := htail
      exact absurd heq hne'.ne
  | cons t rest =>
      have htailne := handles_ne hs htail fun e he => (hin' e he).1
      rw [List.map_cons] at htail
      have hbegin := htail.1
      obtain ⟨hback, hbackLease⟩ := hin back (by simp)
      obtain ⟨ht, -⟩ := hin' t List.mem_cons_self
      rw [List.map_append, List.map_singleton] at hresult
      obtain ⟨-, hbackLt, hbackEnd⟩ := hresult.mem (List.mem_append_right _ (List.mem_singleton_self back.1))
      obtain ⟨hlow, hhigh, hblock⟩ := lt_blockEnd (p := back.1.historyBegin) hs.block_pos
      by_cases hmid : mid % s.config.blockTokens = 0
      · -- the append begins a block of its own
        have hdisjoint : ∀ e ∈ t :: rest, back.1.handle ≠ e.1.handle := by
          intro e he heq
          have hlater : mid ≤ e.1.historyBegin := (htail.mem (List.mem_map_of_mem he)).1
          have hcells := hs.blockAt_slot hback.block (hin' e he).1.block (congrArg KvMemBlockHandle.slot heq)
          have hzero : e.1.historyBegin % s.config.blockTokens = 0 := by
            rcases List.mem_cons.mp he with rfl | he
            · rwa [hbegin]
            · exact (htail.mod_eq_zero hs.block_pos (List.mem_map_of_mem he)).1
          omega
        have hfold : ((t :: rest).foldl extendBack (front ++ [back]).reverse).reverse =
            (front ++ [back]) ++ (t :: rest) := by
          rw [foldl_extendBack htailne, List.reverse_append, List.reverse_reverse, List.reverse_reverse]
          rw [List.reverse_append]
          intro b hb
          obtain rfl : back = b := Option.some.inj hb
          exact hdisjoint
        rw [hfold]
        refine ⟨?_, fun e he => (List.mem_append.mp he).elim (hin e) (hin' e)⟩
        rw [List.map_append, List.map_append]
        exact hresult.append hs.block_pos htail hmid
      · -- the append goes on in the block that the history ends in
        obtain ⟨hend, hle⟩ := hresult.last
        have hinside := lt_blockEnd_of_mod_ne hle hmid
        obtain ⟨hsame, hoffset, -⟩ := sub_mod_of_block (sub_mod_dvd s.config.blockTokens back.1.historyBegin)
          (by omega : back.1.historyBegin - back.1.historyBegin % s.config.blockTokens ≤ mid) (by omega)
        have hhandle : back.1.handle = t.1.handle := by
          have hblock' := ht.block
          rw [hbegin, hsame] at hblock'
          exact hs.blockAt_unique hback.block hblock'
        have hstorage : back.1.storageBegin + back.1.tokenCount = t.1.storageBegin := by
          have hmod := Nat.mod_le back.1.historyBegin s.config.blockTokens
          rw [hback.storage, ht.storage, hhandle, hbegin, hoffset]
          omega
        have hfold : ((t :: rest).foldl extendBack (front ++ [back]).reverse).reverse =
            front ++ ({ back.1 with tokenCount := back.1.tokenCount + t.1.tokenCount }, back.2) :: rest := by
          rw [List.pairwise_cons] at htailne
          rw [List.reverse_append, List.foldl_cons]
          have hjoin : extendBack ([back].reverse ++ front.reverse) t =
              ({ back.1 with tokenCount := back.1.tokenCount + t.1.tokenCount }, back.2) :: front.reverse :=
            if_pos ⟨hhandle, hstorage⟩
          rw [hjoin, foldl_extendBack htailne.2]
          · simp
          · intro b hb e he
            obtain rfl := Option.some.inj hb
            exact hhandle ▸ htailne.1 e he
        rw [hfold]
        refine ⟨?_, ?_⟩
        · rw [List.map_append, List.map_cons]
          exact hresult.merge hs.block_pos htail hmid
        · intro e he
          rcases List.mem_append.mp he with he | he
          · exact hin e (List.mem_append_left _ he)
          · rcases List.mem_cons.mp he with rfl | he
            · exact ⟨⟨hback.block, hback.storage⟩, hbackLease⟩
            · exact hin' e (List.mem_cons_of_mem _ he)

theorem stored_of_readable (hs : s.Inv) {p : ℕ} (h : s.Readable p) : s.Stored p := by
  obtain ⟨e, he, hle, hlt, hpin⟩ := h
  have hlimit := (hs.directory.entry e he).limit
  unfold State.Stored
  rw [if_pos (by omega)]
  exact ⟨e, he, hle, hlt, hpin⟩

theorem stored_of_prepared {a : Append} (happend : s.append = some a) {p : ℕ}
    (hle : s.totalTokens ≤ p) (hlt : p < a.begin + a.count) : s.Stored p := by
  unfold State.Stored
  rw [if_neg (not_lt.mpr hle)]
  exact ⟨a, happend, hlt⟩

/-- **A mapping that returns** has cut the interval at the ends of blocks, each span under its lease. -/
theorem repositoryStorage_cut (hs : s.Inv) (h : s.repositoryStorage start count = .ok out) :
    Cut s.config.blockTokens start (start + count) (out.map Prod.fst) ∧
      (∀ e ∈ out, s.InBlock e.1 ∧ e.2 = some e.1.handle) ∧ start + count ≤ uint64Max ∧
      ∀ p, start ≤ p → p < start + count → s.Stored p := by
  unfold State.repositoryStorage at h
  dsimp only at h
  by_cases hover : uint64Max < start + count
  · rw [if_pos hover] at h
    cases h
  rw [if_neg hover] at h
  by_cases hcommitted : start + count ≤ s.totalTokens
  · rw [if_pos hcommitted] at h
    obtain ⟨hcut, hin, hreadable⟩ := leasedRead_cut hs h
    exact ⟨hcut, hin, not_lt.mp hover, fun p hp hlt => stored_of_readable hs (hreadable p hp hlt)⟩
  rw [if_neg hcommitted] at h
  by_cases hnone : s.append = none
  · rw [if_pos hnone] at h
    cases h
  rw [if_neg hnone] at h
  by_cases hwhole : s.totalTokens ≤ start
  · rw [if_pos hwhole] at h
    obtain ⟨a, happend, hlow, hhigh, hcut, hin⟩ := leasedWrite_cut hs h
    exact ⟨hcut, hin, not_lt.mp hover, fun p hp hlt => stored_of_prepared happend (by omega) (by omega)⟩
  · rw [if_neg hwhole] at h
    obtain ⟨result, hresult, h⟩ := Except.bind_eq_ok.mp h
    obtain ⟨tail, htail, h⟩ := Except.bind_eq_ok.mp h
    obtain rfl := Except.ok.inj h
    obtain ⟨hcut, hin, hreadable⟩ := leasedRead_cut hs hresult
    obtain ⟨a, happend, -, hhigh, hcut', hin'⟩ := leasedWrite_cut hs htail
    have hmid : start + (s.totalTokens - start) = s.totalTokens := by omega
    have hstop : s.totalTokens + (start + count - s.totalTokens) = start + count := by omega
    rw [hmid] at hcut hreadable
    rw [hstop] at hcut' hhigh
    obtain ⟨hjoined, heach⟩ := joined_cut hs hcut hcut' (by omega) (by omega) hin hin'
    refine ⟨hjoined, heach, not_lt.mp hover, fun p hp hlt => ?_⟩
    by_cases hp' : p < s.totalTokens
    · exact stored_of_readable hs (hreadable p hp hp')
    · exact stored_of_prepared happend (not_lt.mp hp') (by omega)

theorem leasedRead_ok (hs : s.Inv) (hmax : start + count ≤ uint64Max)
    (hall : ∀ p, start ≤ p → p < start + count → s.Readable p) : ∃ out, s.leasedRead start count = .ok out := by
  obtain ⟨r, hr⟩ := repositoryStorageRead_ok hs.directory hmax hall
  unfold State.leasedRead
  rw [hr]
  exact ⟨_, rfl⟩

theorem leasedWrite_ok (hs : s.Inv) {a : Append} (happend : s.append = some a) (hlow : s.totalTokens ≤ start)
    (hhigh : start + count ≤ a.begin + a.count) : ∃ out, s.leasedWrite start count = .ok out := by
  have ha := hs.append a happend
  obtain ⟨out, hout, -⟩ := storageWrite_spec ha hs.block_pos (ha.begin_eq ▸ hlow) hhigh
  unfold State.leasedWrite State.storageWrite
  rw [happend]
  dsimp only
  rw [hout]
  exact ⟨_, rfl⟩

/-- **The mapping returns** where all positions have storage. -/
theorem repositoryStorage_ok (hs : s.Inv) (hpos : 0 < count) (hmax : start + count ≤ uint64Max)
    (hall : ∀ p, start ≤ p → p < start + count → s.Stored p) : ∃ out, s.repositoryStorage start count = .ok out := by
  have hread : ∀ p, start ≤ p → p < start + count → p < s.totalTokens → s.Readable p := by
    intro p hp hlt hp'
    have hstored := hall p hp hlt
    unfold State.Stored at hstored
    rwa [if_pos hp'] at hstored
  unfold State.repositoryStorage
  dsimp only
  rw [if_neg (not_lt.mpr hmax)]
  by_cases hcommitted : start + count ≤ s.totalTokens
  · rw [if_pos hcommitted]
    exact leasedRead_ok hs hmax fun p hp hlt => hread p hp hlt (by omega)
  rw [if_neg hcommitted]
  -- the last position is one of the append
  have hlast := hall (start + count - 1) (by omega) (by omega)
  unfold State.Stored at hlast
  rw [if_neg (by omega)] at hlast
  obtain ⟨a, happend, hhigh⟩ := hlast
  rw [if_neg (by rw [happend]; exact fun h => by cases h)]
  by_cases hwhole : s.totalTokens ≤ start
  · rw [if_pos hwhole]
    exact leasedWrite_ok hs happend hwhole (by omega)
  · rw [if_neg hwhole]
    obtain ⟨result, hresult⟩ := leasedRead_ok hs (by omega : start + (s.totalTokens - start) ≤ uint64Max)
      fun p hp hlt => hread p hp (by omega) (by omega)
    obtain ⟨tail, htail⟩ := leasedWrite_ok hs happend le_rfl
      (by omega : s.totalTokens + (start + count - s.totalTokens) ≤ a.begin + a.count)
    exact ⟨_, Except.bind_eq_ok.mpr ⟨result, hresult, Except.bind_eq_ok.mpr ⟨tail, htail, rfl⟩⟩⟩

end Storage

end Qw3.Store
