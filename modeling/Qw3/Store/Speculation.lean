import Qw3.Store.Extending

/-!
# Speculative appends

An append that is prepared short, extended and committed in part ends as one that
was prepared at its full length; what it shows its executor are the places the
directory will have.

* `storageWrite_spec` — a write view cuts its interval, with a lease for each span.
* `commitAppend_holds` — a committed position is in the directory at its span's
  place.
* `State.SpeculativeAppend`, `speculativeAppend` — the whole promise.
-/

namespace Qw3.Store

open Qw3.Repository (KvMemBlockHandle Record Repo Control refMask)

variable {s t : State} {a : Append} {G : Placement}

/-! ## Views -/

theorem Append.ioLeases_eq (a : Append) : a.ioLeases = a.spans.map Span.handle := by
  unfold Append.ioLeases Append.spans
  rw [List.map_append]
  cases a.tail <;> rfl

/-- The lease of a span is the one on its slot. -/
theorem Append.leaseAt_eq {i : ℕ} {sp : Span} (h : a.spans[i]? = some sp) :
    a.leaseAt i = some sp.handle := by
  unfold Append.spans at h
  unfold Append.leaseAt
  cases htail : a.tail with
  | none =>
      rw [htail] at h
      have hreserved : a.reserved[i]? = some sp := h
      simp [hreserved]
  | some tl =>
      rw [htail] at h
      cases i with
      | zero =>
          obtain rfl : tl = sp := Option.some.inj h
          rfl
      | succ i =>
          have hreserved : a.reserved[i]? = some sp := h
          simp [hreserved]

/-- What the clipped spans of a partition cut. -/
theorem Partition.clip {lo hi start stop : ℕ} {l : List Span} (h : Partition lo hi l)
    (hstart : start ≤ stop) (hstop : stop ≤ hi) :
    Partition (min stop (max lo start)) stop (l.filterMap (Append.clip start stop)) := by
  induction l generalizing lo with
  | nil =>
      have heq : lo = hi := h
      show min stop (max lo start) = stop
      omega
  | cons sp rest ih =>
      obtain ⟨hbegin, hpos, hle, hrest⟩ := h
      have hrest := ih hrest
      by_cases hempty : min stop (sp.historyBegin + sp.tokenCount) ≤ max start sp.historyBegin
      · have hclip : Append.clip start stop sp = none := if_pos hempty
        rw [List.filterMap_cons_none hclip]
        have heq : min stop (max lo start) = min stop (max (lo + sp.tokenCount) start) := by omega
        rw [heq]
        exact hrest
      · have hclip : Append.clip start stop sp = some ⟨max start sp.historyBegin,
            sp.storageBegin + (max start sp.historyBegin - sp.historyBegin),
            min stop (sp.historyBegin + sp.tokenCount) - max start sp.historyBegin, sp.handle⟩ :=
          if_neg hempty
        rw [List.filterMap_cons_some hclip]
        have heq : min stop (max (lo + sp.tokenCount) start) = min stop (max lo start) +
            (min stop (sp.historyBegin + sp.tokenCount) - max start sp.historyBegin) := by omega
        rw [heq] at hrest
        exact ⟨by dsimp only; omega, by dsimp only; omega, by dsimp only; omega, hrest⟩

/-- The spans of a write view, without their leases. -/
theorem Append.map_fst_clipped (a : Append) (start stop : ℕ) :
    (a.spans.zipIdx.filterMap fun e => (Append.clip start stop e.1).map fun sp =>
      (sp, a.leaseAt e.2)).map Prod.fst = a.spans.filterMap (Append.clip start stop) := by
  rw [List.map_filterMap]
  conv_rhs => rw [← List.zipIdx_map_fst 0 a.spans, List.filterMap_map]
  refine List.filterMap_congr ?_
  intro e _
  rw [Option.map_map]
  exact congrFun Option.map_id _

/-- **A write view.**  Its spans cut the interval, each with the lease of its slot
and at its place. -/
theorem storageWrite_spec (ha : s.AppendOk a) (hb : 0 < s.config.blockTokens) {start count : ℕ}
    (hstart : a.begin ≤ start) (hstop : start + count ≤ a.begin + a.count) :
    ∃ out, a.storageWrite start count = .ok out ∧
      Partition start (start + count) (out.map Prod.fst) ∧
      ∀ e ∈ out, e.2 = some e.1.handle ∧ ∃ sp ∈ a.spans, sp.handle = e.1.handle ∧
        ∀ o < e.1.tokenCount, sp.Covers (e.1.historyBegin + o) ∧
          e.1.storageBegin + o = sp.storageBegin + (e.1.historyBegin + o - sp.historyBegin) := by
  have hvalid : ¬ (start < a.begin ∨ a.begin + a.count < start ∨
      a.begin + a.count - start < count) := by omega
  unfold Append.storageWrite
  rw [if_neg hvalid]
  by_cases hzero : count = 0
  · rw [if_pos hzero]
    refine ⟨[], rfl, by rw [hzero]; rfl, ?_⟩
    intro e he
    cases he
  · rw [if_neg hzero]
    refine ⟨_, rfl, ?_, ?_⟩
    · have hclip := (ha.partition hb).clip (Nat.le_add_right start count) hstop
      have heq : min (start + count) (max a.begin start) = start := by omega
      rw [heq] at hclip
      rw [Append.map_fst_clipped]
      exact hclip
    · intro e he
      obtain ⟨⟨sp, i⟩, hmem, hclip⟩ := List.mem_filterMap.mp he
      obtain ⟨sp', hsp', rfl⟩ := Option.map_eq_some_iff.mp hclip
      have hspan : a.spans[i]? = some sp := List.mem_zipIdx_iff_getElem?.mp hmem
      unfold Append.clip at hsp'
      dsimp only at hsp'
      split_ifs at hsp' with hempty
      obtain rfl := Option.some.inj hsp'
      have hlease : a.leaseAt i = some sp.handle := Append.leaseAt_eq hspan
      refine ⟨hlease, sp, List.mem_of_getElem? hspan, rfl, ?_⟩
      intro o ho
      dsimp only at ho ⊢
      unfold Span.Covers
      omega

/-! ## What a commit leaves in the directory -/

/-- The directory has a history position at a physical token of a block. -/
def State.HoldsAt (t : State) (p : ℕ) (h : KvMemBlockHandle) (address : ℕ) : Prop :=
  ∃ k, (k, h) ∈ t.history.entries ∧ k ≤ p ∧ p < k + (t.blocks h.slot).nTokens ∧
    address = (t.blocks h.slot).origPosStart + (p - k)

/-- An installation that succeeds was not of a slot with a saturated count. -/
theorem refs_of_install {h : KvMemBlockHandle} {bakedPos validTokens : ℕ}
    (hinstall : s.install h bakedPos validTokens = .ok t) : s.repo.refs h.slot ≠ refMask := by
  intro hrefs
  have hnot : ¬ s.repo.Pinnable h := fun hpin => hpin.2.2.2 hrefs
  unfold State.install at hinstall
  rw [if_pos hnot] at hinstall
  cases hinstall

/-- What the directory has after an installation. -/
theorem install_holds {limit : ℕ} (hs : s.Directory G limit) {h : KvMemBlockHandle}
    {bakedPos validTokens : ℕ} (hslot : h.slot < s.blockCount)
    (hinstall : s.install h bakedPos validTokens = .ok t) :
    (∀ p, p ∈ t.history.entries ↔ p = ((s.repo.record h.slot).tokenBegin, h) ∨
      p ∈ s.history.entries ∧ p.2.slot ≠ h.slot) ∧
    (∀ i ≠ h.slot, t.blocks i = s.blocks i) ∧ (t.blocks h.slot).nTokens = validTokens ∧
      (t.blocks h.slot).origPosStart = h.slot * s.config.blockTokens := by
  obtain ⟨history, htake, hlookup, rfl⟩ := install_eq_ok hinstall
  obtain ⟨history', htake', hmem⟩ := hs.takeNode_eq_some hslot
  obtain rfl := Option.some.inj (htake.symm.trans htake')
  have hlookup' : history.lookup (s.repo.record h.slot).tokenBegin = none := by
    refine OrdMap.lookup_eq_none.mpr ?_
    intro g hg
    exact OrdMap.lookup_eq_none.mp hlookup g ((hmem _).mp hg).1
  refine ⟨?_, ?_, ?_, ?_⟩
  · intro p
    exact (OrdMap.mem_insert hlookup').trans (or_congr_right (hmem p))
  · intro i hi
    exact Function.update_of_ne hi _ _
  · simp [State.installed]
  · simp [State.installed]

/-- **The installation loop.**  The entries of other slots stay, and each span
before `stop` gets its entry. -/
theorem commitReserved_holds {extra : ℕ → ℕ} {stop pos : ℕ} {l : List Span}
    (h : Installing G extra a stop s l pos) (hbaked : a.bakedBegin + (stop - a.begin) ≤ int32Max)
    (ht : State.commitReserved a stop l s = .ok t) :
    (∀ p ∈ s.history.entries, (∀ sp ∈ l, sp.handle.slot ≠ p.2.slot) →
      p ∈ t.history.entries ∧ t.blocks p.2.slot = s.blocks p.2.slot) ∧
    ∀ sp ∈ l, sp.historyBegin < stop → (sp.historyBegin, sp.handle) ∈ t.history.entries ∧
      (t.blocks sp.handle.slot).nTokens = min sp.tokenCount (stop - sp.historyBegin) ∧
      (t.blocks sp.handle.slot).origPosStart = sp.handle.slot * s.config.blockTokens := by
  induction l generalizing s pos extra with
  | nil =>
      obtain rfl := Except.ok.inj ht
      refine ⟨fun p hp _ => ⟨hp, rfl⟩, ?_⟩
      intro sp hsp
      cases hsp
  | cons sp rest ih =>
      rcases commitReserved_cons_eq_ok ht with ⟨hlt, ht⟩ | ⟨hlt, r, u, hcommit, hu, ht⟩
      · obtain ⟨hkept, hnew⟩ := ih h.skip ht
        refine ⟨fun p hp hne => hkept p hp fun q hq => hne q (List.mem_cons_of_mem _ hq), ?_⟩
        intro q hq hqlt
        rcases List.mem_cons.mp hq with rfl | hq
        · exact absurd hqlt (not_lt.mpr hlt)
        · exact hnew q hq hqlt
      · have hreserved := h.reserved sp List.mem_cons_self
        have hfixed : r.config = s.repo.config ∧ r.refs sp.handle.slot = s.repo.refs sp.handle.slot ∧
            r.record sp.handle.slot = s.repo.record sp.handle.slot := by
          obtain ⟨-, rfl⟩ := Repo.commit_eq_some hcommit
          rw [Repo.setControl_refs, if_pos rfl, Control.withPhase_refs, Repo.setControl_record]
          exact ⟨rfl, rfl, rfl⟩
        have hrefs : s.repo.refs sp.handle.slot ≠ refMask := hfixed.2.1 ▸ refs_of_install hu
        obtain ⟨u', hinstall, hnext, -, hconfig, -⟩ := h.step hbaked hlt hcommit hrefs
        obtain rfl := Except.ok.inj (hu.symm.trans hinstall)
        obtain ⟨hkept, hnew⟩ := ih hnext ht
        have hdirectory : ({ s with repo := r } : State).Directory G stop :=
          h.directory.congr rfl (congrArg Repository.Config.capacity hfixed.1) rfl rfl
            fun _ _ => ⟨rfl, rfl, rfl, rfl⟩
        have hslot : sp.handle.slot < ({ s with repo := r } : State).blockCount := by
          show sp.handle.slot < r.config.capacity
          rw [hfixed.1]
          exact hreserved.slot_lt
        obtain ⟨hentries, hblocks, htokens, horigin⟩ := install_holds hdirectory hslot hu
        have hbegin : (r.record sp.handle.slot).tokenBegin = sp.historyBegin := by
          rw [hfixed.2.2, hreserved.record]
        have hother : ∀ q ∈ rest, q.handle.slot ≠ sp.handle.slot := fun q hq heq =>
          (List.nodup_cons.mp h.nodup).1 (List.mem_map.mpr ⟨q, hq, heq⟩)
        refine ⟨?_, ?_⟩
        · intro p hp hne
          have hslot := (hne sp List.mem_cons_self).symm
          obtain ⟨hmem, hblock⟩ := hkept p ((hentries p).mpr (.inr ⟨hp, hslot⟩))
            fun q hq => hne q (List.mem_cons_of_mem _ hq)
          exact ⟨hmem, hblock.trans (hblocks _ hslot)⟩
        · intro q hq hqlt
          rcases List.mem_cons.mp hq with rfl | hq
          · obtain ⟨hmem, hblock⟩ := hkept (q.historyBegin, q.handle)
              ((hentries _).mpr (.inl (by rw [hbegin]))) hother
            dsimp only at hblock
            rw [hblock]
            exact ⟨hmem, htokens, horigin⟩
          · rw [← hconfig]
            exact hnew q hq hqlt

/-- **A committed position is where its span says.** -/
theorem commitAppend_holds (hs : s.Inv) (happend : s.append = some a) {accepted : ℕ}
    (h : s.commitAppend accepted = .ok t) {sp : Span} (hsp : sp ∈ a.spans) {p : ℕ}
    (hcovers : sp.Covers p) (hp : p < a.begin + accepted) :
    t.HoldsAt p sp.handle (sp.storageBegin + (p - sp.historyBegin)) := by
  have ha := hs.append a happend
  have hb := hs.block_pos
  have hbaked := ha.baked
  obtain ⟨a', u, happend', hle, -, hloop, rfl⟩ := commitAppend_eq_ok.mp h
  obtain rfl := Option.some.inj (happend.symm.trans happend')
  obtain ⟨hkept, hnew⟩ := commitReserved_holds (hs.installing happend accepted) (by omega) hloop
  obtain ⟨hframe, -⟩ := commitTail_frame s accepted a.tail
  have hhistory : (s.commitTail accepted a.tail).history = s.history := by rw [hframe]
  have hconfig : (s.commitTail accepted a.tail).config = s.config := by rw [hframe]
  unfold Span.Covers at hcovers
  unfold Append.spans at hsp
  rcases List.mem_append.mp hsp with hsp | hsp
  · -- The block the history ended in has grown.
    have htl : a.tail = some sp := by simpa using hsp
    have htail := ha.tail_some sp htl
    have hmod := Nat.mod_le a.begin s.config.blockTokens
    obtain ⟨hmem, hblock⟩ := hkept _ (hhistory ▸ htail.entry)
      fun q hq => (ha.tail_slot_ne hs.directory htl hq).symm
    have hbegin := htail.historyBegin
    refine ⟨_, hmem, by omega, ?_⟩
    show p < _ + (u.blocks sp.handle.slot).nTokens ∧
      _ = (u.blocks sp.handle.slot).origPosStart + _
    dsimp only at hblock
    rw [hblock, htl]
    unfold State.commitTail
    dsimp only
    rw [Function.update_self, htail.nTokens, (hs.directory.entry _ htail.entry).origin,
      htail.storageBegin]
    dsimp only
    omega
  · obtain ⟨hmem, htokens, horigin⟩ := hnew sp hsp (by omega)
    obtain ⟨-, -, -, hstorage, -⟩ := ha.laid.mem (firstBlock_dvd _ _) hsp
    refine ⟨_, hmem, hcovers.1, ?_, ?_⟩
    · show p < _ + (u.blocks sp.handle.slot).nTokens
      rw [htokens]
      omega
    · show _ = (u.blocks sp.handle.slot).origPosStart + _
      rw [horigin, hconfig, hstorage]

/-! ## Failures -/

/-- With enough slots ready the reservation loop goes through. -/
theorem reserveBlocks_of_ready {b stop n pos : ℕ} {r : Repo} (h : n ≤ r.ready.length) :
    ∃ p, State.reserveBlocks b stop n pos r = some p := by
  induction n generalizing pos r with
  | zero => exact ⟨_, rfl⟩
  | succ n ih =>
      cases hready : r.ready with
      | nil => simp [hready] at h
      | cons i rest =>
          obtain ⟨g, r₁, hfirst⟩ : ∃ g r₁, r.tryReserve pos b = some (g, r₁) := by
            unfold Repo.tryReserve
            rw [hready]
            exact ⟨_, _, rfl⟩
          obtain ⟨-, -, -, -, -, hcons, -⟩ := Repo.tryReserve_eq_some hfirst
          obtain ⟨p, hp⟩ := @ih (pos + b) r₁ (by rw [hcons, List.length_cons] at h; omega)
          refine ⟨(⟨pos, g.slot * b, min b (stop - pos), g⟩ :: p.1, p.2), ?_⟩
          rw [State.reserveBlocks, hfirst]
          dsimp only
          rw [hp]
          rfl

/-- An extension either changes nothing or goes through: it does not lose
capacity on the way. -/
theorem extend_ne_lostCapacity (s : State) (count : ℕ) : s.extend count ≠ .error .lostCapacity := by
  unfold State.extend
  split
  · intro h
    cases h
  · rename_i a happend
    dsimp only
    generalize (if a.begin + count ≤ ((a.begin + a.count - 1) / s.config.blockTokens + 1) *
      s.config.blockTokens then 0 else State.ceilDiv (a.begin + count -
        ((a.begin + a.count - 1) / s.config.blockTokens + 1) * s.config.blockTokens)
        s.config.blockTokens) = needed
    split_ifs with hle hoverflow hblock hready hidentity
    any_goals
      intro h
      cases h
    obtain ⟨p, hp⟩ := reserveBlocks_of_ready (b := s.config.blockTokens) (not_lt.mp hready)
    rw [hp]
    intro h
    cases h

/-- What an extension that goes through reaches. -/
theorem extend_count {count : ℕ} (happend : s.append = some a)
    (h : s.extend count = .ok (some t)) :
    ∃ a', t.append = some a' ∧ a'.count = max a.count count := by
  obtain ⟨a₀, ha, ⟨hle, rfl⟩ | ⟨needed, more, r, hx, rfl⟩⟩ := extend_eq_ok h
  all_goals obtain rfl := Option.some.inj (happend.symm.trans ha)
  · exact ⟨a, happend, (max_eq_left hle).symm⟩
  · exact ⟨_, rfl, (max_eq_right hx.longer.le).symm⟩

/-- Extensions touch only the repository and the open append. -/
theorem extendAll_frame (s : State) (counts : List ℕ) :
    (s.extendAll counts).blocks = s.blocks ∧ (s.extendAll counts).history = s.history ∧
      (s.extendAll counts).nodes = s.nodes ∧ (s.extendAll counts).totalTokens = s.totalTokens := by
  unfold State.extendAll
  induction counts generalizing s with
  | nil => exact ⟨rfl, rfl, rfl, rfl⟩
  | cons count rest ih =>
      rw [List.foldl_cons]
      obtain ⟨hblocks, hhistory, hnodes, htotal⟩ := ih (s.extendTo count)
      rw [hblocks, hhistory, hnodes, htotal]
      rcases extendTo_cases s count with heq | hextend
      · rw [heq]
        exact ⟨rfl, rfl, rfl, rfl⟩
      · rw [extend_frame hextend]
        exact ⟨rfl, rfl, rfl, rfl⟩

/-! ## The promise -/

/-- What the store promises about speculative appends. -/
structure State.SpeculativeAppend (s : State) : Prop where
  /-- an append that was extended is the one prepared at its final length, and so is its commit -/
  atOnce : ∀ count bakedBegin t counts, s.prepareRepositoryAppend count bakedBegin = .ok (some t) →
    ∃ a u, (t.extendAll counts).append = some a ∧
      s.prepareRepositoryAppend a.count bakedBegin = .ok (some u) ∧
      ∀ accepted, (t.extendAll counts).commitAppend accepted = u.commitAppend accepted
  reaches : ∀ a count t, s.append = some a → s.extend count = .ok (some t) →
    ∃ a', t.append = some a' ∧ a'.count = max a.count count
  partition : ∀ a, s.append = some a → Partition a.begin (a.begin + a.count) a.spans
  inSlot : ∀ a, s.append = some a → ∀ sp ∈ a.spans,
    sp.handle.slot * s.config.blockTokens ≤ sp.storageBegin ∧
      sp.storageBegin + sp.tokenCount ≤ (sp.handle.slot + 1) * s.config.blockTokens
  ioLeases : ∀ a, s.append = some a → s.ioLeases = .ok (a.spans.map Span.handle)
  /-- a write view cuts its interval; each span has the lease of its slot, and is
  where a commit will have its positions -/
  write : ∀ a start count, s.append = some a → a.begin ≤ start →
    start + count ≤ a.begin + a.count →
    ∃ out, s.storageWrite start count = .ok out ∧
      Partition start (start + count) (out.map Prod.fst) ∧
      ∀ e ∈ out, e.2 = some e.1.handle ∧ e.1.handle ∈ a.ioLeases ∧
        ∀ accepted t, s.commitAppend accepted = .ok t → ∀ o < e.1.tokenCount,
          e.1.historyBegin + o < a.begin + accepted →
            t.HoldsAt (e.1.historyBegin + o) e.1.handle (e.1.storageBegin + o)
  /-- an extension that returns false or throws has done nothing -/
  failed : ∀ count, s.extend count ≠ .error .lostCapacity ∧
    ((∀ t, s.extend count ≠ .ok (some t)) → s.extendTo count = s)
  /-- an append that is given up leaves blocks, directory and history as they were -/
  destroyed : ∀ count bakedBegin t counts u,
    s.prepareRepositoryAppend count bakedBegin = .ok (some t) →
    (t.extendAll counts).cancelAppend = .ok u → u.blocks = s.blocks ∧ u.history = s.history ∧
      u.nodes = s.nodes ∧ u.totalTokens = s.totalTokens

theorem State.Inv.speculative (hs : s.Inv) (hrec : s.Recorded) : s.SpeculativeAppend where
  atOnce count bakedBegin t counts h := by
    obtain ⟨a, happend, hprepare⟩ := prepare_of_extendAll hs hrec h counts
    exact ⟨a, _, happend, hprepare, fun _ => rfl⟩
  reaches a count t happend h := extend_count happend h
  partition a happend := (hs.append a happend).partition hs.block_pos
  inSlot a happend sp hsp := by
    obtain ⟨offset, hat⟩ := (hs.append a happend).span hs.block_pos hs.directory hsp
    have hfits := hat.fits
    rw [hat.storageBegin, Nat.succ_mul]
    omega
  ioLeases a happend := by
    unfold State.ioLeases
    rw [happend]
    exact congrArg _ a.ioLeases_eq
  write a start count happend hstart hstop := by
    obtain ⟨out, hout, hpartition, hspans⟩ :=
      storageWrite_spec (hs.append a happend) hs.block_pos hstart hstop
    refine ⟨out, ?_, hpartition, ?_⟩
    · unfold State.storageWrite
      rw [happend]
      exact hout
    · intro e he
      obtain ⟨hlease, sp, hsp, hhandle, hplaced⟩ := hspans e he
      refine ⟨hlease, ?_, ?_⟩
      · rw [a.ioLeases_eq, ← hhandle]
        exact List.mem_map_of_mem hsp
      · intro accepted t hcommit o ho hlt
        obtain ⟨hcovers, haddress⟩ := hplaced o ho
        rw [haddress, ← hhandle]
        exact commitAppend_holds hs happend hcommit hsp hcovers hlt
  failed count := by
    refine ⟨extend_ne_lostCapacity s count, ?_⟩
    intro h
    rcases extendTo_cases s count with heq | hextend
    · exact heq
    · exact absurd hextend (h _)
  destroyed count bakedBegin t counts u h hcancel := by
    obtain ⟨tail, reserved, r, r₁, -, rfl⟩ := prepare_eq_ok.mp h
    obtain ⟨hblocks, hhistory, hnodes, htotal⟩ := extendAll_frame _ counts
    obtain ⟨a, -, rfl⟩ := cancelAppend_eq_ok hcancel
    exact ⟨hblocks, hhistory, hnodes, htotal⟩

/-- **Speculative appends.** -/
theorem speculativeAppend (hs : machine.Reachable s) : s.SpeculativeAppend :=
  (recorded_invariant.reachable hs).1.speculative (recorded_invariant.reachable hs).2

/-- After three tokens in a block of four, an append of two tokens that is
extended to six, past the end of the tail's block, holds what one of six holds. -/
theorem speculativeAppend_extended : ∃ s, machine.Reachable s ∧ s.SpeculativeAppend ∧
    ∃ t a, s.prepareRepositoryAppend 2 3 = .ok (some t) ∧
      (t.extendAll [4, 6]).append = some a ∧ a.count = 6 ∧
      s.prepareRepositoryAppend 6 3 = .ok (some (t.extendAll [4, 6])) := by
  have hrun : (machine.run (State.initial ⟨4, true⟩ ⟨4, 4⟩)
      [.prepareAppend 3 0, .commitAppend 3]).any (fun s => decide
        (((s.prepareRepositoryAppend 2 3).toOption.join.bind fun t =>
          (t.extendAll [4, 6]).append.map Append.count) = some 6)) = true := by
    decide +kernel
  obtain ⟨s, hs, hstate⟩ := machine.exists_reachable ⟨_, _, validConfig_small, rfl⟩ hrun
  have hstate := of_decide_eq_true hstate
  obtain ⟨t, hprepare, hstate⟩ := Option.bind_eq_some_iff.mp hstate
  have hprepare := join_eq_some hprepare
  obtain ⟨a, happend, hcount⟩ := Option.map_eq_some_iff.mp hstate
  obtain ⟨hinv, hrec⟩ := recorded_invariant.reachable hs
  obtain ⟨a', happend', hsame⟩ := prepare_of_extendAll hinv hrec hprepare [4, 6]
  obtain rfl := Option.some.inj (happend.symm.trans happend')
  rw [hcount] at hsame
  exact ⟨s, hs, speculativeAppend hs, t, a, hprepare, happend, hcount, hsame⟩

end Qw3.Store
