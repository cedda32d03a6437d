import Qw3.Store.Model

/-!
# The historical directory

What the directory says between two calls, and what an installation and a read
make of it.

* `Directory G limit` — every slot owns one node; an entry names an installed
  block of its key, inside its block and below `limit`, whose tokens are the
  ones `G` has for these history positions.
* `install_spec` — an installation at a position beyond the directory succeeds
  and adds the block's entry.
* `Partition`, `repositoryStorageRead_spec` — a read that returns has cut the
  interval into the spans' pieces, each at its committed tokens.
-/

namespace Qw3.Store

open Qw3.Repository (KvMemBlockHandle Record Repo uint32Max uint64Max)

/-- A ghost memory: the block and the physical token of a history position. -/
abbrev Placement := ℕ → Option (KvMemBlockHandle × ℕ)

namespace State

variable (s : State)

/-- The entry `(k, h)` names an installed block. -/
structure Installed (G : Placement) (limit k : ℕ) (h : KvMemBlockHandle) : Prop where
  slot_lt : h.slot < s.blockCount
  key : (s.blocks h.slot).historyPosStart = k
  generation : (s.blocks h.slot).repositoryGeneration = h.generation
  origin : (s.blocks h.slot).origPosStart = h.slot * s.config.blockTokens
  aligned : k % s.config.blockTokens = 0
  nTokens_pos : 0 < (s.blocks h.slot).nTokens
  nTokens_le : (s.blocks h.slot).nTokens ≤ s.config.blockTokens
  limit : k + (s.blocks h.slot).nTokens ≤ limit
  placed : ∀ o < (s.blocks h.slot).nTokens,
    G (k + o) = some (h, h.slot * s.config.blockTokens + o)

/-- The directory: each slot owns one node, parked or in the map, and each entry
names an installed block. -/
structure Directory (G : Placement) (limit : ℕ) : Prop where
  parked : ∀ i < s.blockCount, (s.nodes i).isSome ↔ ∀ p ∈ s.history.entries, p.2.slot ≠ i
  entry : ∀ p ∈ s.history.entries, s.Installed G limit p.1 p.2

end State

namespace State.Directory

variable {s t : State} {G G' : Placement} {limit limit' : ℕ}

/-- Two entries of one slot are one entry. -/
theorem eq_of_slot (hs : s.Directory G limit) {p q : ℕ × KvMemBlockHandle}
    (hp : p ∈ s.history.entries) (hq : q ∈ s.history.entries) (h : p.2.slot = q.2.slot) :
    p = q := by
  refine OrdMap.eq_of_mem hp hq ?_
  rw [← (hs.entry p hp).key, ← (hs.entry q hq).key, h]

/-- A change that leaves directory, nodes and the entries' extents alone. -/
theorem congr (hs : s.Directory G limit) (hconfig : t.config = s.config)
    (hcount : t.blockCount = s.blockCount) (hhistory : t.history = s.history)
    (hnodes : t.nodes = s.nodes)
    (hblocks : ∀ p ∈ s.history.entries,
      (t.blocks p.2.slot).historyPosStart = (s.blocks p.2.slot).historyPosStart ∧
      (t.blocks p.2.slot).repositoryGeneration = (s.blocks p.2.slot).repositoryGeneration ∧
      (t.blocks p.2.slot).origPosStart = (s.blocks p.2.slot).origPosStart ∧
      (t.blocks p.2.slot).nTokens = (s.blocks p.2.slot).nTokens) :
    t.Directory G limit where
  parked i hi := by
    rw [hnodes, hhistory]
    exact hs.parked i (hcount ▸ hi)
  entry p hp := by
    rw [hhistory] at hp
    obtain ⟨hkey, hgeneration, horigin, htokens⟩ := hblocks p hp
    have hentry := hs.entry p hp
    exact
      { slot_lt := hcount ▸ hentry.slot_lt
        key := hkey.trans hentry.key
        generation := hgeneration.trans hentry.generation
        origin := by rw [horigin, hconfig]; exact hentry.origin
        aligned := hconfig ▸ hentry.aligned
        nTokens_pos := htokens ▸ hentry.nTokens_pos
        nTokens_le := by rw [htokens, hconfig]; exact hentry.nTokens_le
        limit := htokens ▸ hentry.limit
        placed := by rw [htokens, hconfig]; exact hentry.placed }

/-- More room, and another memory that agrees below the old limit. -/
theorem mono (hs : s.Directory G limit) (hlimit : limit ≤ limit')
    (hG : ∀ p < limit, G' p = G p) : s.Directory G' limit' where
  parked := hs.parked
  entry p hp :=
    { hs.entry p hp with
      limit := (hs.entry p hp).limit.trans hlimit
      placed := fun o ho => by
        have hle := (hs.entry p hp).limit
        rw [hG _ (by omega)]
        exact (hs.entry p hp).placed o ho }

/-- Two entries are at least a block apart. -/
theorem apart (hs : s.Directory G limit) {p q : ℕ × KvMemBlockHandle}
    (hp : p ∈ s.history.entries) (hq : q ∈ s.history.entries) (hlt : p.1 < q.1) :
    p.1 + s.config.blockTokens ≤ q.1 := by
  have hpmod := Nat.dvd_of_mod_eq_zero (hs.entry p hp).aligned
  have hqmod := Nat.dvd_of_mod_eq_zero (hs.entry q hq).aligned
  have hstep : s.config.blockTokens ≤ q.1 - p.1 :=
    Nat.le_of_dvd (Nat.sub_pos_of_lt hlt) (Nat.dvd_sub hqmod hpmod)
  omega

/-- The intervals of two entries do not meet. -/
theorem disjoint (hs : s.Directory G limit) {p q : ℕ × KvMemBlockHandle}
    (hp : p ∈ s.history.entries) (hq : q ∈ s.history.entries) (hlt : p.1 < q.1) :
    p.1 + (s.blocks p.2.slot).nTokens ≤ q.1 := by
  have hple := (hs.entry p hp).nTokens_le
  have hapart := hs.apart hp hq hlt
  omega

theorem key_lt (hs : s.Directory G limit) {p : ℕ × KvMemBlockHandle}
    (hp : p ∈ s.history.entries) : p.1 < limit := by
  have hpos := (hs.entry p hp).nTokens_pos
  have hle := (hs.entry p hp).limit
  omega

/-- The node of a slot can always be taken, and what remains are the entries of
the other slots. -/
theorem takeNode_eq_some (hs : s.Directory G limit) {i : ℕ} (hi : i < s.blockCount) :
    ∃ history, s.takeNode i = some history ∧
      ∀ p, p ∈ history.entries ↔ p ∈ s.history.entries ∧ p.2.slot ≠ i := by
  unfold State.takeNode
  by_cases hparked : (s.nodes i).isSome
  · rw [if_pos hparked]
    refine ⟨_, rfl, fun p => ⟨fun hp => ⟨hp, (hs.parked i hi).mp hparked p hp⟩, And.left⟩⟩
  · rw [if_neg hparked]
    have hsome : ∃ p ∈ s.history.entries, p.2.slot = i := by
      by_contra hnone
      push Not at hnone
      exact hparked ((hs.parked i hi).mpr hnone)
    obtain ⟨p, hp, rfl⟩ := hsome
    have hentry := hs.entry p hp
    have hlookup : s.history.lookup (s.blocks p.2.slot).historyPosStart = some p.2 := by
      rw [hentry.key]
      exact OrdMap.lookup_eq_some.mpr hp
    refine ⟨_, if_pos (by rw [hlookup]; rfl), fun q => ?_⟩
    rw [OrdMap.mem_erase, hentry.key]
    refine and_congr_right fun hq => not_congr ⟨fun hkey => ?_, fun hslot => ?_⟩
    · rw [OrdMap.eq_of_mem hq hp hkey]
    · rw [hs.eq_of_slot hq hp hslot]

end State.Directory

/-! ## Installation -/

/-- What an installation of `h` needs of its block. -/
structure State.Installable (s : State) (h : KvMemBlockHandle) (bakedPos validTokens : ℕ) :
    Prop where
  pinnable : s.repo.Pinnable h
  blockTokens : (s.repo.record h.slot).tokenCount = s.config.blockTokens
  aligned : (s.repo.record h.slot).tokenBegin % s.config.blockTokens = 0
  valid_pos : 0 < validTokens
  valid_le : validTokens ≤ s.config.blockTokens
  baked : bakedPos + validTokens ≤ int32Max
  resident : s.resident h.slot = none
  generation : (s.blocks h.slot).repositoryGeneration < h.generation

variable {s t : State} {G : Placement} {limit : ℕ}

/-- **An installation succeeds.**  The block's position is beyond every entry,
so neither the position is taken nor is the slot's node missing. -/
theorem install_spec (hs : s.Directory G limit) {h : KvMemBlockHandle} {bakedPos validTokens : ℕ}
    (hinstall : s.Installable h bakedPos validTokens)
    (hbeyond : ∀ p ∈ s.history.entries, p.1 < (s.repo.record h.slot).tokenBegin)
    (hlimit : (s.repo.record h.slot).tokenBegin + validTokens ≤ limit)
    (hG : ∀ o < validTokens, G ((s.repo.record h.slot).tokenBegin + o) =
      some (h, h.slot * s.config.blockTokens + o)) :
    ∃ history, s.install h bakedPos validTokens = .ok (s.installed h bakedPos validTokens history) ∧
      (s.installed h bakedPos validTokens history).Directory G limit ∧
      ∀ p ∈ (s.installed h bakedPos validTokens history).history.entries,
        p ∈ s.history.entries ∨ p = ((s.repo.record h.slot).tokenBegin, h) := by
  obtain ⟨hpin, htokens, haligned, hpos, hle, hbaked, hresident, hgeneration⟩ := hinstall
  obtain ⟨history, htake, hmem⟩ := hs.takeNode_eq_some hpin.1
  have hrange : ¬ ((s.repo.record h.slot).tokenCount = 0 ∨
      s.config.blockTokens < (s.repo.record h.slot).tokenCount ∨
      (s.repo.record h.slot).tokenBegin % s.config.blockTokens ≠ 0 ∨ validTokens = 0 ∨
      (s.repo.record h.slot).tokenCount < validTokens ∨ int32Max < bakedPos + validTokens) := by
    rw [htokens]
    omega
  have hinstalled : ¬ ((s.resident h.slot).isSome ∨
      (s.blocks h.slot).repositoryGeneration = h.generation) := by
    rw [hresident]
    simp [hgeneration.ne]
  have hlookup : s.history.lookup (s.repo.record h.slot).tokenBegin = none :=
    OrdMap.lookup_eq_none.mpr fun a ha => absurd (hbeyond _ ha) (lt_irrefl _)
  have hlookup' : history.lookup (s.repo.record h.slot).tokenBegin = none :=
    OrdMap.lookup_eq_none.mpr fun a ha => absurd (hbeyond _ ((hmem _).mp ha).1) (lt_irrefl _)
  refine ⟨history, ?_, ?_, ?_⟩
  · simp only [State.install, if_neg (not_not.mpr hpin), if_neg hrange, if_neg hinstalled, hlookup,
      htake]
    rfl
  · unfold State.installed
    refine ⟨fun i hi => ?_, fun p hp => ?_⟩
    · by_cases hih : i = h.slot
      · subst hih
        refine ⟨fun hsome => ?_, fun hall => ?_⟩
        · simp at hsome
        · exact absurd rfl (hall _ ((OrdMap.mem_insert hlookup').mpr (.inl rfl)))
      · have hnode : Function.update s.nodes h.slot none i = s.nodes i :=
          Function.update_of_ne hih _ _
        show (Function.update s.nodes h.slot none i).isSome ↔ _
        rw [hnode, hs.parked i hi]
        refine ⟨fun hall p hp => ?_, fun hall p hp heq => ?_⟩
        · rcases (OrdMap.mem_insert hlookup').mp hp with rfl | hp
          · exact fun heq => hih heq.symm
          · exact hall p ((hmem p).mp hp).1
        · refine hall p ((OrdMap.mem_insert hlookup').mpr (.inr ((hmem p).mpr ⟨hp, ?_⟩))) heq
          exact fun hslot => hih (heq.symm.trans hslot)
    · rcases (OrdMap.mem_insert hlookup').mp hp with rfl | hp
      · exact
          { slot_lt := hpin.1
            key := by simp
            generation := by simp
            origin := by simp
            aligned := haligned
            nTokens_pos := by simpa using hpos
            nTokens_le := by simpa using hle
            limit := by simpa using hlimit
            placed := by simpa using hG }
      · obtain ⟨hp, hslot⟩ := (hmem p).mp hp
        have hentry := hs.entry p hp
        constructor
        case slot_lt => exact hentry.slot_lt
        case aligned => exact hentry.aligned
        all_goals simp only [Function.update_of_ne hslot]
        case key => exact hentry.key
        case generation => exact hentry.generation
        case origin => exact hentry.origin
        case nTokens_pos => exact hentry.nTokens_pos
        case nTokens_le => exact hentry.nTokens_le
        case limit => exact hentry.limit
        case placed => exact hentry.placed
  · intro p hp
    rcases (OrdMap.mem_insert hlookup').mp hp with rfl | hp
    · exact .inr rfl
    · exact .inl ((hmem p).mp hp).1

/-! ## Reading -/

/-- Spans that cut the interval from `start` to `stop` into pieces. -/
def Partition : ℕ → ℕ → List Span → Prop
  | start, stop, [] => start = stop
  | start, stop, sp :: rest =>
      sp.historyBegin = start ∧ 0 < sp.tokenCount ∧ start + sp.tokenCount ≤ stop ∧
        Partition (start + sp.tokenCount) stop rest

/-- A span points at the tokens that `G` has for its history positions. -/
def Span.PlacedBy (G : Placement) (sp : Span) : Prop :=
  ∀ o < sp.tokenCount, G (sp.historyBegin + o) = some (sp.handle, sp.storageBegin + o)

/-- The read loop: the spans so far cut what is covered, at their places. -/
theorem readSpans_spec (hs : s.Directory G limit) {stop : ℕ}
    {l : List (ℕ × KvMemBlockHandle)} (hl : ∀ p ∈ l, p ∈ s.history.entries) {covered : ℕ}
    (hle : covered ≤ stop) (r : Repo) :
    Partition covered (s.readSpans stop l covered r).2.1 (s.readSpans stop l covered r).1 ∧
      (s.readSpans stop l covered r).2.1 ≤ stop ∧
      ∀ sp ∈ (s.readSpans stop l covered r).1, sp.PlacedBy G := by
  induction l generalizing covered r with
  | nil => exact ⟨rfl, hle, fun sp hsp => absurd hsp List.not_mem_nil⟩
  | cons p rest ih =>
      obtain ⟨first, h⟩ := p
      have hentry := hs.entry _ (hl _ List.mem_cons_self)
      have hempty : Partition covered covered [] := rfl
      unfold State.readSpans
      by_cases hlt : covered < stop
      · rw [if_pos hlt]
        cases hpin : r.tryPin h with
        | none => exact ⟨hempty, hle, fun sp hsp => absurd hsp List.not_mem_nil⟩
        | some r' =>
            simp only
            split_ifs with hgap
            · exact ⟨hempty, hle, fun sp hsp => absurd hsp List.not_mem_nil⟩
            · rw [not_or, not_lt, not_le] at hgap
              obtain ⟨hpartition, hstop, hplaced⟩ := ih
                (fun q hq => hl q (List.mem_cons_of_mem _ hq))
                (by omega : covered + (min (first + (s.blocks h.slot).nTokens) stop - covered) ≤ stop)
                { r' with leases := h ::ₘ r'.leases }
              refine ⟨⟨rfl, ?_, ?_, hpartition⟩, hstop, fun sp hsp => ?_⟩
              · show 0 < min (first + (s.blocks h.slot).nTokens) stop - covered
                omega
              · have hbound : ∀ {a c : ℕ} {spans : List Span}, Partition a c spans → a ≤ c := by
                  intro a c spans
                  induction spans generalizing a with
                  | nil => exact le_of_eq
                  | cons sp rest ih =>
                      rintro ⟨-, -, -, hrest⟩
                      have hle := ih hrest
                      omega
                exact hbound hpartition
              · rcases List.mem_cons.mp hsp with rfl | hsp
                · intro o ho
                  have hposition : covered + o = first + (covered - first + o) := by omega
                  have ho' : covered - first + o < (s.blocks h.slot).nTokens := by
                    have hlt : o < min (first + (s.blocks h.slot).nTokens) stop - covered := ho
                    omega
                  show G (covered + o) = some (h, (s.blocks h.slot).origPosStart +
                    (covered - first) + o)
                  rw [hposition, hentry.placed _ ho', hentry.origin, Nat.add_assoc]
                · exact hplaced sp hsp
      · rw [if_neg hlt]
        exact ⟨hempty, hle, fun sp hsp => absurd hsp List.not_mem_nil⟩

/-- **A read that returns is exact.** -/
theorem repositoryStorageRead_spec (hs : s.Directory G limit) {start count : ℕ}
    {spans : List Span} {r : Repo} (hread : s.repositoryStorageRead start count = .ok (spans, r)) :
    Partition start (start + count) spans ∧ ∀ sp ∈ spans, sp.PlacedBy G := by
  unfold State.repositoryStorageRead at hread
  dsimp only at hread
  split_ifs at hread with hoverflow hzero hmissing
  · obtain ⟨rfl, -⟩ := Prod.mk.inj (Except.ok.inj hread)
    exact ⟨by rw [hzero]; rfl, fun sp hsp => absurd hsp List.not_mem_nil⟩
  · obtain ⟨rfl, -⟩ := Prod.mk.inj (Except.ok.inj hread)
    rw [not_not] at hmissing
    obtain ⟨hpartition, -, hplaced⟩ := readSpans_spec hs
      (fun p hp => OrdMap.mem_of_mem_floor hp) (Nat.le_add_right start count) s.repo
    rw [hmissing] at hpartition
    exact ⟨hpartition, hplaced⟩

end Qw3.Store
