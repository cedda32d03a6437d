import Qw3.Store.Accounts

/-!
# The spans of an append

New blocks lie at consecutive multiples of the block size, so the spans of an
append never overlap and each position of it has one place.

* `Laid b stop pos spans` — one span for each block from `pos` to `stop`.
* `Laid.find`, `Laid.extended` — the span that covers a position; an extension.
* `reserveBlocks_spec` — what the reservation loop returns.
-/

namespace Qw3.Store

open Qw3.Repository (KvMemBlockHandle Record Repo Control)

/-- One span for each block from `pos` on, as far as `stop`. -/
def Laid (b stop : ℕ) : ℕ → List Span → Prop
  | pos, [] => stop ≤ pos
  | pos, sp :: rest =>
      pos < stop ∧ sp.historyBegin = pos ∧ sp.storageBegin = sp.handle.slot * b ∧
        sp.tokenCount = min b (stop - pos) ∧ Laid b stop (pos + b) rest

/-- A span covers a position. -/
def Span.Covers (sp : Span) (p : ℕ) : Prop :=
  sp.historyBegin ≤ p ∧ p < sp.historyBegin + sp.tokenCount

namespace Laid

variable {b stop stop' pos : ℕ} {l more : List Span} {sp : Span}

/-- What each of the spans is. -/
theorem mem (h : Laid b stop pos l) (hb : b ∣ pos) (hsp : sp ∈ l) :
    pos ≤ sp.historyBegin ∧ sp.historyBegin < stop ∧ b ∣ sp.historyBegin ∧
      sp.storageBegin = sp.handle.slot * b ∧ sp.tokenCount = min b (stop - sp.historyBegin) := by
  induction l generalizing pos with
  | nil => exact absurd hsp List.not_mem_nil
  | cons q rest ih =>
      obtain ⟨hlt, hbegin, hstorage, hcount, hrest⟩ := h
      rcases List.mem_cons.mp hsp with rfl | hsp
      · rw [hbegin]
        exact ⟨le_rfl, hlt, hb, hstorage, hcount⟩
      · obtain ⟨hle, hfacts⟩ := ih hrest (Nat.dvd_add hb (dvd_refl b)) hsp
        exact ⟨by omega, hfacts⟩

/-- The first span that covers a position is the only one. -/
theorem find (h : Laid b stop pos l) (hb : b ∣ pos) (hsp : sp ∈ l) {p : ℕ} (hp : sp.Covers p) :
    (l.find? fun q => q.historyBegin ≤ p ∧ p < q.historyBegin + q.tokenCount) = some sp := by
  induction l generalizing pos with
  | nil => exact absurd hsp List.not_mem_nil
  | cons q rest ih =>
      obtain ⟨-, hbegin, -, hcount, hrest⟩ := h
      rcases List.mem_cons.mp hsp with rfl | hsp
      · exact List.find?_cons_of_pos (by simpa [Span.Covers] using hp)
      · have hle := (mem hrest (Nat.dvd_add hb (dvd_refl b)) hsp).1
        have hlow : sp.historyBegin ≤ p := hp.1
        rw [List.find?_cons_of_neg]
        · exact ih hrest (Nat.dvd_add hb (dvd_refl b)) hsp
        · rw [decide_eq_true_eq, hbegin, hcount]
          omega

/-- The blocks of the spans end where the block of the last position ends. -/
theorem blocks_end (h : Laid b stop pos l) (hb : b ∣ pos) (hstop : 0 < stop)
    (hlt : pos < stop + b) : pos + l.length * b = ((stop - 1) / b + 1) * b := by
  induction l generalizing pos with
  | nil =>
      obtain ⟨k, rfl⟩ := hb
      have hle : stop ≤ b * k := h
      have hk : 0 < k := by
        by_contra hzero
        rw [Nat.eq_zero_of_not_pos hzero] at hle
        omega
      obtain ⟨n, rfl⟩ := Nat.exists_eq_add_of_lt hk
      have hdiv : (stop - 1) / b = n := by
        refine Nat.div_eq_of_lt_le ?_ ?_
        · rw [Nat.mul_comm]
          rw [show b * (0 + n + 1) = b * n + b by ring] at hlt hle
          omega
        · rw [show b * (0 + n + 1) = (n + 1) * b by ring] at hle
          omega
      rw [hdiv]
      simp only [List.length_nil]
      ring
  | cons q rest ih =>
      have hnext := ih h.2.2.2.2 (Nat.dvd_add hb (dvd_refl b)) (by have := h.1; omega)
      rw [List.length_cons, ← hnext]
      ring

/-- The last span is filled up, and the blocks that follow are added. -/
theorem extended (h : Laid b stop pos l) (hle : stop ≤ stop')
    (hmore : Laid b stop' (pos + l.length * b) more) :
    Laid b stop' pos
      (setLastCount (fun sp => min stop' (pos + l.length * b) - sp.historyBegin) l ++ more) := by
  generalize hend : pos + l.length * b = e at hmore ⊢
  induction l generalizing pos with
  | nil =>
      have heq : pos = e := by simpa using hend
      rw [heq]
      exact hmore
  | cons q rest ih =>
      obtain ⟨hlt, hbegin, hstorage, hcount, hrest⟩ := h
      have hnext : pos + b + rest.length * b = e := by
        rw [← hend, List.length_cons]
        ring
      cases rest with
      | nil =>
          have heq : pos + b = e := by simpa using hnext
          refine ⟨by omega, hbegin, hstorage, ?_, ?_⟩
          · show min stop' e - q.historyBegin = min b (stop' - pos)
            omega
          · rw [heq]
            exact hmore
      | cons q' rest =>
          have hfull : pos + b < stop := hrest.1
          exact ⟨by omega, hbegin, hstorage, by omega, ih hrest hnext⟩

end Laid

theorem setLastCount_map_handle (count : Span → ℕ) (l : List Span) :
    (setLastCount count l).map Span.handle = l.map Span.handle := by
  induction l with
  | nil => rfl
  | cons sp rest ih =>
      cases rest with
      | nil => rfl
      | cons sp' rest => simpa [setLastCount] using ih

/-! ## Reserving blocks -/

/-- From `r` to `r'` the blocks of the spans `l` have been reserved. -/
structure Reserving (b : ℕ) (r r' : Repo) (l : List Span) : Prop where
  config : r'.config = r.config
  sequence : r.sequence ≤ r'.sequence
  kept : ∀ i, r.phase i ≠ .free → r'.cells i = r.cells i
  free : ∀ sp ∈ l, r.phase sp.handle.slot = .free ∧ sp.handle.slot < r.config.capacity
  claimed : ∀ sp ∈ l, r.sequence < sp.handle.generation ∧ r'.cells sp.handle.slot =
    ⟨.single .writing, ⟨sp.handle, sp.handle.generation, sp.historyBegin, b⟩⟩
  nodup : (l.map fun sp => sp.handle.slot).Nodup

/-- One reservation, and those that follow it. -/
theorem Reserving.cons {b pos storage count : ℕ} {r r₁ r' : Repo} {held : ℕ → ℕ} (hr : r.Ok held)
    {h : KvMemBlockHandle} (hreserve : r.tryReserve pos b = some (h, r₁)) {l : List Span}
    (hrest : Reserving b r₁ r' l) : Reserving b r r' (⟨pos, storage, count, h⟩ :: l) := by
  obtain ⟨hmem, hgeneration, hsequence, hconfig, -, -, hcells⟩ := Repo.tryReserve_eq_some hreserve
  obtain ⟨hlt, hfree⟩ := (hr.mem_ready h.slot).mp hmem
  have hcell : r₁.cells h.slot = ⟨.single .writing, ⟨h, h.generation, pos, b⟩⟩ := by simp [hcells]
  have hother : ∀ j, j ≠ h.slot → r₁.cells j = r.cells j := fun j hj => by simp [hcells, hj]
  have hwriting : r₁.phase h.slot = .writing := by simp [Repo.phase, hcell]
  have hle := hrest.sequence
  have hne : ∀ sp ∈ l, sp.handle.slot ≠ h.slot := by
    intro sp hsp heq
    have hphase := (hrest.free sp hsp).1
    rw [heq, hwriting] at hphase
    exact absurd hphase (by decide)
  refine ⟨hrest.config.trans hconfig, by omega, fun i hi => ?_, fun sp hsp => ?_, fun sp hsp => ?_, ?_⟩
  · have hi' : i ≠ h.slot := fun heq => hi (heq ▸ hfree)
    rw [hrest.kept i (by rw [Repo.phase, hother i hi']; exact hi), hother i hi']
  · rcases List.mem_cons.mp hsp with rfl | hsp
    · exact ⟨hfree, hlt⟩
    · obtain ⟨hphase, hslot⟩ := hrest.free sp hsp
      rw [Repo.phase, hother _ (hne sp hsp)] at hphase
      exact ⟨hphase, hconfig ▸ hslot⟩
  · rcases List.mem_cons.mp hsp with rfl | hsp
    · refine ⟨by show r.sequence < h.generation; omega, ?_⟩
      rw [hrest.kept h.slot (by rw [hwriting]; decide), hcell]
    · obtain ⟨hnew, hcell⟩ := hrest.claimed sp hsp
      exact ⟨by omega, hcell⟩
  · rw [List.map_cons, List.nodup_cons]
    refine ⟨fun hmem => ?_, hrest.nodup⟩
    obtain ⟨sp, hsp, heq⟩ := List.mem_map.mp hmem
    exact hne sp hsp heq

/-- **The reservation loop.**  `n` blocks from `pos` are just as many as it takes
to reach `stop`. -/
theorem reserveBlocks_spec {b stop n pos : ℕ} {r r' : Repo} {held : ℕ → ℕ} {l : List Span}
    (hr : r.Ok held) (henough : stop ≤ pos + n * b) (hneeded : n = 0 ∨ pos + (n - 1) * b < stop)
    (hreserve : State.reserveBlocks b stop n pos r = some (l, r')) :
    Laid b stop pos l ∧ Reserving b r r' l ∧
      r'.Ok fun i => held i + countOn (l.map Span.handle) i := by
  induction n generalizing pos r held l with
  | zero =>
      obtain ⟨rfl, rfl⟩ := Prod.mk.inj (Option.some.inj hreserve)
      refine ⟨by simpa [Laid] using henough, ?_, hr⟩
      exact ⟨rfl, le_rfl, fun _ _ => rfl, fun _ h => absurd h List.not_mem_nil,
        fun _ h => absurd h List.not_mem_nil, List.nodup_nil⟩
  | succ n ih =>
      unfold State.reserveBlocks at hreserve
      cases hfirst : r.tryReserve pos b with
      | none => simp [hfirst] at hreserve
      | some p =>
          obtain ⟨h, r₁⟩ := p
          simp only [hfirst, Option.map_eq_some_iff, Prod.mk.injEq, Prod.exists] at hreserve
          obtain ⟨rest, r₂, hrest, rfl, rfl⟩ := hreserve
          have hone : r₁.Ok fun i => held i + if i = h.slot then 1 else 0 :=
            hr.reserve hfirst fun _ => rfl
          rw [Nat.add_mul, one_mul] at henough
          rw [Nat.add_sub_cancel] at hneeded
          have hlt : pos + n * b < stop := hneeded.resolve_left (Nat.succ_ne_zero n)
          have hneeded' : n = 0 ∨ pos + b + (n - 1) * b < stop := by
            rcases Nat.eq_zero_or_pos n with hzero | hpos
            · exact .inl hzero
            · obtain ⟨m, rfl⟩ := Nat.exists_eq_add_of_lt hpos
              refine .inr ?_
              rw [show 0 + m + 1 - 1 = m by omega]
              rw [show (0 + m + 1) * b = b + m * b by ring] at hlt
              omega
          obtain ⟨hlaid, hreserving, hok⟩ := ih hone (by omega) hneeded' hrest
          refine ⟨⟨by omega, rfl, rfl, rfl, hlaid⟩, hreserving.cons hr hfirst, ?_⟩
          refine hok.congr fun i => ?_
          rw [List.map_cons, countOn_cons]
          show held i + (if i = h.slot then 1 else 0) + countOn (rest.map Span.handle) i =
            held i + (countOn (rest.map Span.handle) i + if i = h.slot then 1 else 0)
          omega

/-- `ceil_div_u32` gives just enough blocks. -/
theorem ceilDiv_enough {b : ℕ} (hb : 0 < b) (n : ℕ) :
    n ≤ State.ceilDiv n b * b ∧ (State.ceilDiv n b = 0 ∨ (State.ceilDiv n b - 1) * b < n) := by
  have hlow := Nat.div_mul_le_self (n + b - 1) b
  have hhigh := Nat.lt_div_mul_add (a := n + b - 1) hb
  unfold State.ceilDiv
  refine ⟨by omega, ?_⟩
  rcases Nat.eq_zero_or_pos ((n + b - 1) / b) with hzero | hpos
  · exact .inl hzero
  · right
    rw [Nat.sub_mul, one_mul]
    have hb' : b ≤ (n + b - 1) / b * b := Nat.le_mul_of_pos_left b hpos
    omega

end Qw3.Store
