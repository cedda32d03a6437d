import Mathlib.Data.List.Count
import Mathlib.Logic.Function.Basic
import Qw3.Lib.Machine
import Qw3.PageTable.Table

/-!
# Owners of physical pages

Page tables that share an allocator.

An operation may throw after it has taken or given back pages.  What it did so far stays
in the table, and the ledger is kept by the same loops; so the invariant holds after a
throw as after a return.

* `Lawful` — what is asked of the allocator: it hands out free pages.
* `Ledger`, `recorded` — the pages that a table has taken, and those it has given back.
* `Inv` — a table's own pages are held by nobody else; kept by every operation.
* `pageTables` — in every run a page that a table has taken is in one owned entry of
  it, has been handed to a caller out of one, or has been given back.
-/

namespace Qw3.PageTable

open KvPageTable Program

variable {σ : Type}

/-! ## The allocator -/

/-- The allocator hands out free pages, and takes pages back. -/
structure Lawful (a : KvPhysicalPageAllocator σ) (free : σ → ℤ → Prop) : Prop where
  allocate_ok : ∀ {s s' : σ} {p : ℤ}, a.allocatePhysicalPage s = (.ok p, s') →
    free s p ∧ 0 ≤ p ∧ ∀ q, free s' q ↔ free s q ∧ q ≠ p
  allocate_error : ∀ {s s' : σ} {e : String}, a.allocatePhysicalPage s = (.error e, s') →
    ∀ q, free s' q ↔ free s q
  release : ∀ {pages : List ℤ}, (∀ p ∈ pages, 0 ≤ p) → ∀ (s : σ) (q : ℤ),
    free (a.releasePhysicalPages pages s) q ↔ free s q ∨ q ∈ pages

/-- The pages that a table has taken and those it has given back. -/
structure Ledger where
  allocated : List ℤ
  returned : List ℤ

/-- The allocator, with what a table does to it recorded. -/
def recorded (a : KvPhysicalPageAllocator σ) : KvPhysicalPageAllocator (σ × Ledger) where
  allocatePhysicalPage s :=
    match a.allocatePhysicalPage s.1 with
    | (.ok p, s') => (.ok p, s', { s.2 with allocated := s.2.allocated ++ [p] })
    | (.error e, s') => (.error e, s', s.2)
  releasePhysicalPages pages s :=
    (a.releasePhysicalPages pages s.1, { s.2 with returned := s.2.returned ++ pages })
  freePages s := a.freePages s.1
  physicalPageCapacity s := a.physicalPageCapacity s.1

/-! ## What a table holds -/

/-- The entries of a table, with whether they are owned. -/
def KvPageTable.entries (t : KvPageTable) : List (ℤ × Bool) := t.pages.zip t.owned

/-- The owned entries of a table with a page. -/
def KvPageTable.ownedCount (t : KvPageTable) (p : ℤ) : ℕ := t.entries.count (p, true)

/-- A table holds its own pages alone.  The pages `out` have left its entries and are still
held for it; `H` are the pages held by others, and what it borrows is of `B`. -/
structure Inv (free : σ → ℤ → Prop) (out : List ℤ) (H B : ℤ → Prop) (x : KvPageTable × σ × Ledger) : Prop where
  length_eq : x.1.owned.length = x.1.pages.length
  nonneg : ∀ p ∈ x.2.2.allocated, 0 ≤ p
  balance : ∀ p, x.2.2.allocated.count p = x.1.ownedCount p + out.count p + x.2.2.returned.count p
  once : ∀ p, x.1.ownedCount p + out.count p ≤ 1
  alone : ∀ p, 0 < x.1.ownedCount p + out.count p → ¬ H p ∧ ¬ free x.2.1 p
  others : ∀ p, H p → ¬ free x.2.1 p
  borrowed : ∀ p, (p, false) ∈ x.1.entries → 0 ≤ p → B p

section Entries

variable {t : KvPageTable} {i : ℕ} {p q : ℤ}

theorem filterMap_range' {α β : Type} (l : List α) (g : α → Option β) (n : ℕ) :
    (List.range' n (l.length - n)).filterMap (fun i => (l[i]?).bind g) = (l.drop n).filterMap g := by
  induction hk : l.length - n generalizing n with
  | zero => rw [List.range'_zero, List.drop_eq_nil_of_le (by omega)]; rfl
  | succ k ih =>
      have hlt : n < l.length := by omega
      have hrest : l.length - (n + 1) = k := by omega
      have ih := ih (n + 1) hrest
      rw [List.range'_succ, List.drop_eq_getElem_cons hlt, List.filterMap_cons, List.filterMap_cons, ih,
        List.getElem?_eq_getElem hlt, Option.bind_some]

theorem length_entries (hlen : t.owned.length = t.pages.length) : t.entries.length = t.pages.length := by
  rw [entries, List.length_zip, hlen, min_self]

/-- The pages that go back are those of the owned entries. -/
theorem ownedFrom_eq (hlen : t.owned.length = t.pages.length) (n : ℕ) :
    t.ownedFrom n = (t.entries.drop n).filterMap fun e => if e.2 then some e.1 else none := by
  rw [← filterMap_range', length_entries hlen, ownedFrom, List.filterMap_filter]
  congr 1
  funext i
  by_cases hlt : i < t.pages.length
  · have howned : i < t.owned.length := by omega
    have howns : t.Owns i ↔ t.owned[i] = true := by
      rw [Owns, List.getElem?_eq_getElem howned, Option.some.injEq]
      exact or_iff_right (by omega)
    rw [entries, List.zip, List.getElem?_zipWith, List.getElem?_eq_getElem hlt,
      List.getElem?_eq_getElem howned]
    simp only [howns, decide_eq_true_eq, Option.bind_some]
  · rw [entries, List.zip, List.getElem?_zipWith, List.getElem?_eq_none (by omega), ite_self]
    rfl

theorem count_ownedFrom (hlen : t.owned.length = t.pages.length) (n : ℕ) :
    (t.ownedFrom n).count p = (t.entries.drop n).count (p, true) := by
  rw [ownedFrom_eq hlen]
  induction t.entries.drop n with
  | nil => rfl
  | cons e l ih =>
      obtain ⟨q, owned⟩ := e
      cases owned with
      | false => simpa using ih
      | true =>
          rw [List.filterMap_cons_some (by rfl), List.count_cons, List.count_cons, ih]
          simp

theorem zip_set {α β : Type} (l : List α) (l' : List β) (a : α) (b : β) :
    (l.set i a).zip (l'.set i b) = (l.zip l').set i (a, b) := by
  induction l generalizing l' i with
  | nil => rfl
  | cons c l ih =>
      cases l' with
      | nil => simp
      | cons d l' =>
          cases i with
          | zero => rfl
          | succ i => exact congrArg _ (ih l')

theorem count_set_add {α : Type} [BEq α] [LawfulBEq α] {l : List α} {a b c : α} (h : l[i]? = some c) :
    (l.set i a).count b + (if c == b then 1 else 0) = l.count b + if a == b then 1 else 0 := by
  obtain ⟨hi, rfl⟩ := List.getElem?_eq_some_iff.mp h
  have hle : (if l[i] == b then 1 else 0) ≤ l.count b := by
    split_ifs with heq
    · exact List.count_pos_iff.mpr (eq_of_beq heq ▸ List.getElem_mem hi)
    · exact Nat.zero_le _
  rw [List.count_set hi]
  omega

theorem ownedCount_push (hlen : t.owned.length = t.pages.length) :
    (t.push p).ownedCount q = t.ownedCount q + [p].count q := by
  have hentries : (t.push p).entries = t.entries ++ [(p, true)] := List.zip_append hlen.symm
  rw [ownedCount, hentries, List.count_append, ownedCount]
  simp [List.count_singleton]

theorem entries_fill (hlen : t.owned.length = t.pages.length) :
    (t.fill i p).entries = t.entries.set i (p, true) := by
  unfold fill entries
  rw [hlen, Nat.sub_self, List.replicate_zero, List.append_nil, zip_set]

/-- An entry is a page with its mark. -/
theorem entries_getElem? (hlen : t.owned.length = t.pages.length) (hp : t.pages[i]? = some p) :
    ∃ b, t.entries[i]? = some (p, b) ∧ t.owned[i]? = some b := by
  obtain ⟨hi, rfl⟩ := List.getElem?_eq_some_iff.mp hp
  have howned := List.getElem?_eq_getElem (show i < t.owned.length by omega)
  refine ⟨_, ?_, howned⟩
  rw [entries, List.zip, List.getElem?_zipWith, List.getElem?_eq_getElem hi, howned]

end Entries

/-! ## What the steps of an operation keep -/

namespace Inv

variable {a : KvPhysicalPageAllocator σ} {free : σ → ℤ → Prop} {out released : List ℤ} {H B : ℤ → Prop}
  {t u : KvPageTable} {s : σ × Ledger} {i : ℕ} {p : ℤ}

theorem length (h : Inv free out H B (t, s)) : t.owned.length = t.pages.length := h.length_eq

/-- Only the pages and the marks count. -/
theorem congr (h : Inv free out H B (t, s)) (hpages : u.pages = t.pages) (howned : u.owned = t.owned) :
    Inv free out H B (u, s) := by
  have hentries : u.entries = t.entries := by rw [entries, entries, hpages, howned]
  have hcount : ∀ p, u.ownedCount p = t.ownedCount p := by
    intro p
    rw [ownedCount, ownedCount, hentries]
  refine ⟨by rw [hpages, howned]; exact h.length, h.nonneg, ?_, ?_, ?_, h.others, ?_⟩
  · intro p
    rw [hcount]
    exact h.balance p
  · intro p
    rw [hcount]
    exact h.once p
  · intro p
    rw [hcount]
    exact h.alone p
  · intro p
    rw [hentries]
    exact h.borrowed p

/-- A table's owned entries change, and as many pages leave it as come into it. -/
theorem move {out' : List ℤ} (h : Inv free out H B (t, s)) (hlen : u.owned.length = u.pages.length)
    (hcount : ∀ p, u.ownedCount p + out'.count p = t.ownedCount p + out.count p)
    (hborrowed : ∀ p, (p, false) ∈ u.entries → 0 ≤ p → B p) : Inv free out' H B (u, s) := by
  refine ⟨hlen, h.nonneg, ?_, ?_, ?_, h.others, hborrowed⟩
  · intro p
    rw [hcount]
    exact h.balance p
  · intro p
    rw [hcount]
    exact h.once p
  · intro p
    rw [hcount]
    exact h.alone p

/-- A hole is not owned. -/
theorem hole (h : Inv free out H B (t, s)) (hp : t.pages[i]? = some p) (hneg : p < 0) :
    t.entries[i]? = some (p, false) := by
  obtain ⟨b, hentry, -⟩ := entries_getElem? h.length hp
  cases b with
  | false => exact hentry
  | true =>
      have hmem : 0 < t.ownedCount p := List.count_pos_iff.mpr (List.mem_of_getElem? hentry)
      have hbalance := h.balance p
      have hpos : 0 < s.2.allocated.count p := by
        dsimp only at hbalance
        omega
      have := h.nonneg p (List.count_pos_iff.mp hpos)
      omega

theorem push (h : Inv free (out ++ [p]) H B (t, s)) : Inv free out H B (t.push p, s) := by
  refine h.move ?_ ?_ ?_
  · rw [KvPageTable.push, List.length_append, List.length_append, h.length]
    rfl
  · intro q
    rw [ownedCount_push h.length, List.count_append]
    omega
  · intro q hq hnonneg
    have hentries : (t.push p).entries = t.entries ++ [(p, true)] := List.zip_append h.length.symm
    rw [hentries, List.mem_append, List.mem_singleton] at hq
    rcases hq with hq | hq
    · exact h.borrowed q hq hnonneg
    · cases hq

theorem fill {q : ℤ} (h : Inv free (out ++ [p]) H B (t, s)) (hq : t.pages[i]? = some q) (hneg : q < 0) :
    Inv free out H B (t.fill i p, s) := by
  have hhole := h.hole hq hneg
  refine h.move ?_ ?_ ?_
  · rw [KvPageTable.fill]
    simp [h.length]
  · intro r
    have hset := count_set_add (a := (p, true)) (b := (r, true)) hhole
    rw [if_neg (by simp)] at hset
    rw [ownedCount, entries_fill h.length, ownedCount, List.count_append, List.count_singleton]
    simp only [beq_iff_eq, Prod.mk.injEq, and_true] at hset ⊢
    omega
  · intro r hr hnonneg
    rw [entries_fill h.length] at hr
    rcases List.mem_or_eq_of_mem_set hr with hr | hr
    · exact h.borrowed r hr hnonneg
    · cases hr

/-- The loop body of the releases. -/
theorem dropPage (h : Inv free (out ++ released) H B (t, s)) :
    Inv free (out ++ (KvPageTable.dropPage (released, t) i).1) H B ((KvPageTable.dropPage (released, t) i).2, s) := by
  unfold KvPageTable.dropPage
  dsimp only
  cases hp : t.pages[i]? with
  | none => exact h
  | some p =>
      dsimp only
      split_ifs with hneg howns
      · exact h
      · -- an owned page goes back
        have howned : t.entries[i]? = some (p, true) := by
          obtain ⟨b, hentry, hb⟩ := entries_getElem? h.length hp
          rcases howns with hle | htrue
          · have := (List.getElem?_eq_some_iff.mp hp).1
            have := h.length
            omega
          · rw [hb] at htrue
            rwa [Option.some.inj htrue] at hentry
        refine h.move (by simp [h.length]) ?_ ?_
        · intro r
          have hset := count_set_add (a := (-1, false)) (b := (r, true)) howned
          rw [ownedCount, entries, zip_set, ownedCount, List.count_append, List.count_append, List.count_append,
            List.count_singleton]
          simp only [beq_iff_eq, Prod.mk.injEq, and_true, and_false, if_false, Bool.false_eq_true] at hset ⊢
          rw [entries] at hset ⊢
          omega
        · intro r hr hnonneg
          rw [entries, zip_set] at hr
          rcases List.mem_or_eq_of_mem_set hr with hr | hr
          · exact h.borrowed r hr hnonneg
          · cases hr
            omega
      · -- a borrowed page is only forgotten
        have hborrowed : t.entries[i]? = some (p, false) := by
          obtain ⟨b, hentry, hb⟩ := entries_getElem? h.length hp
          cases b with
          | false => exact hentry
          | true => exact absurd (.inr hb) howns
        refine h.move (by simp [h.length]) ?_ ?_
        · intro r
          have hset := count_set_add (a := (-1, false)) (b := (r, true)) hborrowed
          rw [ownedCount, entries, zip_set, ownedCount]
          simp only [beq_iff_eq, Prod.mk.injEq, and_false, if_false, Bool.false_eq_true] at hset ⊢
          rw [entries] at hset ⊢
          omega
        · intro r hr hnonneg
          rw [entries, zip_set] at hr
          rcases List.mem_or_eq_of_mem_set hr with hr | hr
          · exact h.borrowed r hr hnonneg
          · cases hr
            omega

theorem dropRange {start finish : ℕ} (h : Inv free (out ++ released) H B (t, s)) :
    Inv free (out ++ (KvPageTable.dropRange (released, t) start finish).1) H B
      ((KvPageTable.dropRange (released, t) start finish).2, s) := by
  unfold KvPageTable.dropRange
  induction List.range' start (finish - start) generalizing released t with
  | nil => exact h
  | cons i entries ih => exact ih h.dropPage

theorem shrink (h : Inv free out H B (t, s)) (n : ℕ) :
    Inv free (out ++ t.ownedFrom n) H B (t.shrink n, s) := by
  have hentries : (t.shrink n).entries = t.entries.take n := by
    have howned : (if n < t.owned.length then t.owned.take n else t.owned) = t.owned.take n := by
      split_ifs with hlt
      · rfl
      · rw [List.take_of_length_le (by omega)]
    rw [KvPageTable.shrink, entries, howned, entries, List.zip, List.take_zipWith]
  refine h.move ?_ ?_ ?_
  · have hlen := h.length
    rw [KvPageTable.shrink]
    dsimp only
    split_ifs with hlt
    · rw [List.length_take, List.length_take, hlen]
    · rw [List.length_take]
      omega
  · intro p
    have hsplit := congrArg (List.count (p, true)) (List.take_append_drop n t.entries)
    rw [List.count_append] at hsplit
    rw [ownedCount, hentries, List.count_append, count_ownedFrom h.length, ownedCount]
    omega
  · intro p hp hnonneg
    rw [hentries] at hp
    exact h.borrowed p (List.mem_of_mem_take hp) hnonneg

/-- The table is emptied. -/
theorem cleared (h : Inv free out H B (t, s)) : Inv free (out ++ t.ownedFrom 0) H B (PageTable.cleared t, s) := by
  have hentries : (PageTable.cleared t).entries =
      if t.boundedSlots then List.replicate t.maxPages (-1, false) else [] := by
    unfold PageTable.cleared entries
    dsimp only
    split_ifs
    · exact List.zip_replicate'
    · rfl
  refine h.move ?_ ?_ ?_
  · unfold PageTable.cleared
    dsimp only
    split_ifs
    · rw [List.length_replicate, List.length_replicate]
    · rfl
  · intro p
    have hnone : (PageTable.cleared t).entries.count (p, true) = 0 := by
      rw [hentries, List.count_eq_zero]
      split_ifs
      · simp
      · exact List.not_mem_nil
    rw [ownedCount, hnone, List.count_append, count_ownedFrom h.length, List.drop_zero, ownedCount]
    omega
  · intro p hp hnonneg
    rw [hentries] at hp
    split_ifs at hp
    · cases List.eq_of_mem_replicate hp
      omega
    · cases hp

/-- What is given back is free, and the table's no more. -/
theorem giveBack (h : Inv free (out ++ released) H B (t, s)) (ha : Lawful a free) :
    Inv free out H B (t, (recorded a).releasePhysicalPages released s) := by
  have hnonneg : ∀ p ∈ released, 0 ≤ p := by
    intro p hp
    have hpos := List.count_pos_iff.mpr hp
    have hbalance := h.balance p
    rw [List.count_append] at hbalance
    exact h.nonneg p (List.count_pos_iff.mp (by omega))
  have hfree : ∀ p, free (a.releasePhysicalPages released s.1) p ↔ free s.1 p ∨ p ∈ released :=
    ha.release hnonneg s.1
  refine ⟨h.length_eq, h.nonneg, ?_, ?_, ?_, ?_, h.borrowed⟩
  · intro p
    have hbalance := h.balance p
    dsimp only [recorded] at hbalance ⊢
    rw [List.count_append] at hbalance ⊢
    omega
  · intro p
    have honce := h.once p
    rw [List.count_append] at honce
    dsimp only at honce ⊢
    omega
  · intro p hpos
    have halone := h.alone p
    have honce := h.once p
    rw [List.count_append] at halone honce
    dsimp only [recorded] at hpos halone honce ⊢
    obtain ⟨hothers, hnot⟩ := halone (by omega)
    refine ⟨hothers, ?_⟩
    rw [hfree]
    rintro (hf | hmem)
    · exact hnot hf
    · have := List.count_pos_iff.mpr hmem
      omega
  · intro p hp
    change ¬ free (a.releasePhysicalPages released s.1) p
    rw [hfree]
    rintro (hf | hmem)
    · exact h.others p hp hf
    · have := List.count_pos_iff.mpr hmem
      refine (h.alone p ?_).1 hp
      rw [List.count_append]
      omega

/-- A page that is handed out was free, and then is the table's. -/
theorem take (h : Inv free out H B (t, s)) (ha : Lawful a free) {s' : σ × Ledger}
    (hp : (recorded a).allocatePhysicalPage s = (.ok p, s')) : Inv free (out ++ [p]) H B (t, s') := by
  obtain ⟨s₁, ledger⟩ := s
  unfold recorded at hp
  dsimp only at hp
  split at hp
  next p' s₂ htake =>
    obtain ⟨hpage, rfl⟩ := Prod.mk.inj hp
    obtain rfl := Except.ok.inj hpage
    obtain ⟨hfree, hnonneg, hafter⟩ := ha.allocate_ok htake
    have hnone : t.ownedCount p' + out.count p' = 0 := by
      by_contra hpos
      exact (h.alone p' (Nat.pos_of_ne_zero hpos)).2 hfree
    refine ⟨h.length_eq, ?_, ?_, ?_, ?_, ?_, h.borrowed⟩
    · intro q hq
      rcases List.mem_append.mp hq with hq | hq
      · exact h.nonneg q hq
      · rwa [List.mem_singleton.mp hq]
    · intro q
      have hbalance := h.balance q
      dsimp only at hbalance ⊢
      rw [List.count_append, List.count_append]
      omega
    · intro q
      have honce := h.once q
      dsimp only at honce ⊢
      rw [List.count_append, List.count_singleton]
      split_ifs with heq
      · rw [beq_iff_eq] at heq
        rw [← heq]
        omega
      · omega
    · intro q hpos
      dsimp only at hpos ⊢
      rw [hafter]
      rw [List.count_append, List.count_singleton] at hpos
      by_cases heq : p' = q
      · rw [← heq]
        exact ⟨fun hH => h.others p' hH hfree, fun hf => hf.2 rfl⟩
      · rw [if_neg (by simpa using heq)] at hpos
        obtain ⟨hothers, hnot⟩ := h.alone q (by dsimp only; omega)
        exact ⟨hothers, fun hf => hnot hf.1⟩
    · intro q hq
      dsimp only
      rw [hafter]
      exact fun hf => h.others q hq hf.1
  next =>
    cases (Prod.mk.inj hp).1

/-- An allocator that throws changes nothing. -/
theorem take_error (h : Inv free out H B (t, s)) (ha : Lawful a free) {s' : σ × Ledger} {e : String}
    (hp : (recorded a).allocatePhysicalPage s = (.error e, s')) : Inv free out H B (t, s') := by
  obtain ⟨s₁, ledger⟩ := s
  unfold recorded at hp
  dsimp only at hp
  split at hp
  next => cases (Prod.mk.inj hp).1
  next e' s₂ htake =>
    obtain ⟨-, rfl⟩ := Prod.mk.inj hp
    have hafter := ha.allocate_error htake
    refine ⟨h.length_eq, h.nonneg, h.balance, h.once, ?_, ?_, h.borrowed⟩
    · intro q hpos
      dsimp only
      rw [hafter]
      exact h.alone q hpos
    · intro q hq
      dsimp only
      rw [hafter]
      exact h.others q hq

end Inv

/-! ## The operations keep it -/

section Operations

variable {a : KvPhysicalPageAllocator σ} {free : σ → ℤ → Prop} {out : List ℤ} {H B : ℤ → Prop}

/-- A part of an operation keeps the invariant, whether it returns or throws. -/
def Keeps (free : σ → ℤ → Prop) (out : List ℤ) (H B : ℤ → Prop) {α : Type} (x : TableM (σ × Ledger) α) : Prop :=
  Triple (Inv free out H B) x (fun _ => Inv free out H B) fun _ => Inv free out H B

theorem keeps_modifyTable {f : KvPageTable → KvPageTable}
    (h : ∀ t, (f t).pages = t.pages ∧ (f t).owned = t.owned) : Keeps free out H B (modifyTable f) :=
  Triple.modify fun x hx => hx.congr (h x.1).1 (h x.1).2

theorem takePage_spec (ha : Lawful a free) (t : KvPageTable) (logicalPage : ℕ) :
    Triple (fun x => x.1 = t ∧ Inv free out H B x) (takePage (some (recorded a)) logicalPage)
      (fun p x => x.1 = t ∧ Inv free (out ++ [p]) H B x) fun _ => Inv free out H B := by
  rintro ⟨t, s⟩ ⟨rfl, h⟩
  unfold exec takePage
  dsimp only
  cases htake : (recorded a).allocatePhysicalPage s with
  | mk r s' =>
      cases r with
      | ok p => exact ⟨rfl, h.take ha htake⟩
      | error e => exact h.take_error ha htake

theorem giveBack_spec (ha : Lawful a free) (released : List ℤ) :
    Triple (Inv free (out ++ released) H B) (giveBack (some (recorded a)) released)
      (fun _ => Inv free out H B) fun _ => Inv free out H B := by
  refine Triple.modify ?_
  rintro ⟨t, s⟩ h
  dsimp only
  split_ifs with hnil
  · rwa [hnil, List.append_nil] at h
  · exact h.giveBack ha

/-- The invariant, and enough entries. -/
def Long (free : σ → ℤ → Prop) (out : List ℤ) (H B : ℤ → Prop) (k : ℕ) (x : KvPageTable × σ × Ledger) : Prop :=
  Inv free out H B x ∧ k ≤ x.1.pages.length

theorem growPages_spec (ha : Lawful a free) (k n : ℕ) :
    Triple (fun x => Inv free out H B x ∧ k ≤ x.1.pages.length + n) (growPages (some (recorded a)) n)
      (fun _ => Long free out H B k) fun _ => Inv free out H B := by
  induction n with
  | zero => exact Triple.pure fun _ h => h
  | succ n ih =>
      refine Triple.bind_get fun x hx => ?_
      refine Triple.bind ((takePage_spec ha x.1 _).pre ?_) fun p => ?_
      · rintro _ rfl
        exact ⟨rfl, hx.1⟩
      · refine Triple.bind (Triple.modify fun y hy => ?_) fun _ => ih
        refine ⟨hy.2.push, ?_⟩
        change k ≤ (y.1.pages ++ [p]).length + n
        rw [hy.1, List.length_append, List.length_singleton]
        omega

theorem keeps_growPagesChecked (ha : Lawful a free) (n : ℕ) :
    Keeps free out H B (growPagesChecked (some (recorded a)) n) := by
  induction n with
  | zero => exact Triple.pure fun _ h => h
  | succ n ih =>
      refine Triple.bind_get fun x hx => ?_
      refine Triple.bind ((takePage_spec ha x.1 _).pre ?_) fun p => ?_
      · rintro _ rfl
        exact ⟨rfl, hx⟩
      refine Triple.bind_get fun y hy => ?_
      refine Triple.ite (fun _ => ?_) fun _ => ?_
      · -- a page out of range goes back at once
        refine Triple.bind ((giveBack_spec ha [p]).pre ?_) fun _ => Triple.throw fun _ h => h
        rintro _ rfl
        exact hy.2
      · refine Triple.bind (Triple.modify fun z hz => ?_) fun _ => ih
        rw [hz]
        exact hy.2.push

theorem fillPage_spec (ha : Lawful a free) {k logicalPage : ℕ} (hlt : logicalPage < k) :
    Triple (Long free out H B k) (fillPage (some (recorded a)) logicalPage)
      (fun _ => Long free out H B k) fun _ => Inv free out H B := by
  refine Triple.bind_get fun x hx => ?_
  refine Triple.ite (fun _ => Triple.pure ?_) fun hneg => ?_
  · rintro _ rfl
    exact hx
  · refine Triple.bind ((takePage_spec ha x.1 _).pre ?_) fun p => ?_
    · rintro _ rfl
      exact ⟨rfl, hx.1⟩
    · refine Triple.modify fun y hy => ?_
      obtain ⟨t, s⟩ := y
      obtain ⟨rfl, hy⟩ := hy
      have hget : x.1.pages[logicalPage]? = some (x.1.pages.getD logicalPage (-1)) := by
        rw [List.getD_eq_getElem?_getD, List.getElem?_eq_getElem (hlt.trans_le hx.2)]
        rfl
      refine ⟨hy.fill hget (not_le.mp hneg), ?_⟩
      change k ≤ (x.1.pages.set logicalPage p).length
      rw [List.length_set]
      exact hx.2

theorem keeps_ensureRange (ha : Lawful a free) (range : ℕ × ℕ) :
    Keeps free out H B (ensureRange (some (recorded a)) range) := by
  refine Triple.bind_get fun x hx => ?_
  refine Triple.ite (fun _ => Triple.pure ?_) fun _ => ?_
  · rintro _ rfl
    exact hx
  refine Triple.ite (fun _ => Triple.throw ?_) fun _ => ?_
  · rintro _ rfl
    exact hx
  refine Triple.bind ((growPages_spec ha (range.1 + range.2) _).pre ?_) fun _ => ?_
  · rintro _ rfl
    exact ⟨hx, by omega⟩
  · refine (Triple.forM _ fun i hi => fillPage_spec ha ?_).post fun _ _ h => h.1
    rw [List.mem_range'_1] at hi
    exact hi.2

theorem keeps_ensureLogicalPageRangesResident (ha : Lawful a free) (fresh : ℕ → ℤ) (ranges : List (ℕ × ℕ)) :
    Keeps free out H B (ensureLogicalPageRangesResident (some (recorded a)) fresh ranges) := by
  refine Triple.ite (fun _ => Triple.pure fun _ h => h) fun _ => ?_
  refine Triple.bind (Triple.forM _ fun range _ => keeps_ensureRange ha range) fun _ => ?_
  refine keeps_modifyTable fun t => ?_
  split_ifs <;> exact ⟨rfl, rfl⟩

theorem keeps_ensurePages (ha : Lawful a free) (fresh : ℕ → ℤ) (ctxSize logicalPos count : ℕ) :
    Keeps free out H B (ensurePages (some (recorded a)) fresh ctxSize logicalPos count) := by
  refine Triple.bind_get fun x hx => ?_
  have hpre : ∀ y, y = x → Inv free out H B y := by
    rintro _ rfl
    exact hx
  refine Triple.ite (fun _ => Triple.pure hpre) fun _ => ?_
  refine Triple.ite (fun _ => Triple.throw hpre) fun _ => ?_
  refine Triple.ite (fun _ => Triple.throw hpre) fun _ => ?_
  refine Triple.ite (fun _ => (keeps_ensureLogicalPageRangesResident ha fresh _).pre hpre) fun _ => ?_
  refine Triple.bind ((keeps_growPagesChecked ha _).pre hpre) fun _ => keeps_modifyTable fun t => ?_
  unfold syncDense
  dsimp only
  split_ifs <;> exact ⟨rfl, rfl⟩

theorem keeps_ensureLogicalPageResident (ha : Lawful a free) (fresh : ℕ → ℤ) (logicalPage : ℕ) :
    Keeps free out H B (ensureLogicalPageResident (some (recorded a)) fresh logicalPage) := by
  refine Triple.bind_get fun x hx => ?_
  refine Triple.ite (fun _ => Triple.throw ?_) fun _ => ?_
  · rintro _ rfl
    exact hx
  refine Triple.bind ((growPages_spec ha (logicalPage + 1) _).pre ?_) fun _ => ?_
  · rintro _ rfl
    exact ⟨hx, by omega⟩
  · refine Triple.bind ((fillPage_spec ha (Nat.lt_succ_self _)).post fun _ _ h => h.1) fun _ => ?_
    exact keeps_modifyTable fun t => ⟨rfl, rfl⟩

theorem keeps_releaseLogicalPages (ha : Lawful a free) (start count : ℕ) :
    Keeps free out H B (releaseLogicalPages (some (recorded a)) start count) := by
  refine Triple.bind_get fun x hx => ?_
  refine Triple.ite (fun _ => Triple.pure ?_) fun _ => ?_
  · rintro _ rfl
    exact hx
  · have hdrop : Triple (fun y => y = x)
        (modifyTable fun _ => (dropRange ([], x.1) start (x.1.rangeEnd start count)).2)
        (fun _ => Inv free (out ++ (dropRange ([], x.1) start (x.1.rangeEnd start count)).1) H B)
        fun _ => Inv free out H B := by
      refine Triple.modify ?_
      rintro _ rfl
      exact Inv.dropRange (by rwa [List.append_nil])
    refine Triple.bind hdrop fun _ => Triple.bind (giveBack_spec ha _) fun _ => ?_
    exact keeps_modifyTable fun t => ⟨rfl, rfl⟩

theorem Inv.dropRanges {x : KvPageTable × σ × Ledger} (h : Inv free out H B x) (ranges : List (ℕ × ℕ)) :
    Inv free (out ++ (dropRanges x.1 ranges).1.1) H B ((dropRanges x.1 ranges).1.2, x.2) := by
  unfold PageTable.dropRanges
  have hfold : ∀ (y : (List ℤ × KvPageTable) × ℕ × ℕ), Inv free (out ++ y.1.1) H B (y.1.2, x.2) →
      Inv free (out ++ (ranges.foldl (fun y range =>
        if range.2 = 0 ∨ x.1.pages.length ≤ range.1 then y
        else (KvPageTable.dropRange y.1 range.1 (x.1.rangeEnd range.1 range.2), min y.2.1 range.1,
          max y.2.2 (x.1.rangeEnd range.1 range.2))) y).1.1) H B
        ((ranges.foldl (fun y range =>
        if range.2 = 0 ∨ x.1.pages.length ≤ range.1 then y
        else (KvPageTable.dropRange y.1 range.1 (x.1.rangeEnd range.1 range.2), min y.2.1 range.1,
          max y.2.2 (x.1.rangeEnd range.1 range.2))) y).1.2, x.2) := by
    induction ranges with
    | nil => exact fun _ hy => hy
    | cons range ranges ih =>
        intro y hy
        rw [List.foldl_cons]
        refine ih _ ?_
        split_ifs
        · exact hy
        · exact hy.dropRange
  exact hfold (([], x.1), x.1.pages.length, 0) (by rwa [List.append_nil])

theorem keeps_releaseLogicalPageRanges (ha : Lawful a free) (ranges : List (ℕ × ℕ)) :
    Keeps free out H B (releaseLogicalPageRanges (some (recorded a)) ranges) := by
  refine Triple.bind_get fun x hx => ?_
  refine Triple.ite (fun _ => Triple.pure ?_) fun _ => ?_
  · rintro _ rfl
    exact hx
  · have hdrop : Triple (fun y => y = x) (modifyTable fun _ => (dropRanges x.1 ranges).1.2)
        (fun _ => Inv free (out ++ (dropRanges x.1 ranges).1.1) H B) fun _ => Inv free out H B := by
      refine Triple.modify ?_
      rintro _ rfl
      exact hx.dropRanges ranges
    refine Triple.bind hdrop fun _ => Triple.bind (giveBack_spec ha _) fun _ => ?_
    refine Triple.ite (fun _ => Triple.pure fun _ h => h) fun _ => keeps_modifyTable fun t => ⟨rfl, rfl⟩

theorem keeps_truncateToLogicalPages (ha : Lawful a free) (logicalPages : ℕ) :
    Keeps free out H B (truncateToLogicalPages (some (recorded a)) logicalPages) := by
  refine Triple.bind_get fun x hx => ?_
  have hpre : ∀ y, y = x → Inv free out H B y := by
    rintro _ rfl
    exact hx
  refine Triple.ite (fun _ => Triple.throw hpre) fun _ => ?_
  refine Triple.ite (fun _ => Triple.pure hpre) fun _ => ?_
  refine Triple.bind (Triple.modify ?_) fun _ => giveBack_spec ha _
  rintro _ rfl
  exact hx.shrink logicalPages

/-- Pages that are borrowed are not owned. -/
theorem keeps_adoptSharedPages (fresh : ℕ → ℤ) {shared : List ℤ} (hB : ∀ p ∈ shared, 0 ≤ p → B p) :
    Keeps free out H B (adoptSharedPages fresh shared : TableM (σ × Ledger) PUnit) := by
  refine Triple.bind_get fun x hx => ?_
  have hpre : ∀ y, y = x → Inv free out H B y := by
    rintro _ rfl
    exact hx
  refine Triple.ite (fun _ => Triple.throw hpre) fun hempty => ?_
  refine Triple.ite (fun _ => Triple.pure hpre) fun _ => ?_
  refine Triple.ite (fun _ => Triple.throw hpre) fun _ => Triple.modify ?_
  rintro ⟨t, s⟩ rfl
  dsimp only at hempty
  rw [not_not] at hempty
  have hentries : t.entries = [] := by rw [entries, hempty, List.zip_nil_left]
  refine hx.move ?_ ?_ ?_
  · exact List.length_replicate
  · intro p
    have hnone : (shared.zip (List.replicate shared.length false)).count (p, true) = 0 := by
      rw [List.count_eq_zero]
      intro hp
      cases List.eq_of_mem_replicate (List.of_mem_zip hp).2
    change (shared.zip (List.replicate shared.length false)).count (p, true) + _ = t.entries.count (p, true) + _
    rw [hnone, hentries, List.count_nil]
  · intro p hp hnonneg
    exact hB p (List.of_mem_zip hp).1 hnonneg

/-- The pages that are handed out of owned entries leave the table. -/
theorem detachPagesFrom_spec (t : KvPageTable) (start : ℕ) :
    Triple (fun x => x.1 = t ∧ Inv free out H B x) (detachPagesFrom start : TableM (σ × Ledger) (List ℤ))
      (fun pages x => Inv free (out ++ t.ownedFrom start) H B x ∧ pages = t.pages.drop start)
      fun _ _ => False := by
  refine Triple.bind_get ?_
  rintro x ⟨rfl, hx⟩
  refine Triple.ite (fun hle => Triple.pure ?_) fun _ => ?_
  · rintro _ rfl
    rw [List.drop_eq_nil_of_le hle, ownedFrom, Nat.sub_eq_zero_of_le hle]
    exact ⟨by rwa [List.range'_zero, List.filter_nil, List.filterMap_nil, List.append_nil], rfl⟩
  · refine Triple.bind (Triple.modify ?_) fun _ => Triple.pure fun _ h => ⟨h, rfl⟩
    rintro _ rfl
    exact hx.shrink start

theorem keeps_reset (ha : Lawful a free) : Keeps free out H B (reset (some (recorded a))) := by
  refine Triple.bind_get fun x hx => ?_
  -- what is given back is still in the table, which is emptied after that
  have hgive : Triple (fun y => y = x) (giveBack (some (recorded a)) (x.1.ownedFrom 0))
      (fun _ y => Inv free out H B (cleared y.1, y.2)) fun _ => Inv free out H B := by
    refine Triple.modify ?_
    rintro _ rfl
    dsimp only
    split_ifs with hnil
    · have h := hx.cleared
      rwa [hnil, List.append_nil] at h
    · exact hx.cleared.giveBack ha
  exact Triple.bind hgive fun _ => Triple.modify fun _ h => h

/-- What leaves owned entries of a table for a caller. -/
def leaving (t : KvPageTable) : Op → List ℤ
  | .detachPagesFrom start => t.ownedFrom start
  | _ => []

/-- **An operation keeps the invariant.**  It does so where it throws, too. -/
theorem exec_spec (ha : Lawful a free) (fresh : ℕ → ℤ) (t : KvPageTable) (op : Op)
    (hB : ∀ shared, op = .adoptSharedPages shared → ∀ p ∈ shared, 0 ≤ p → B p) :
    Triple (fun x => x.1 = t ∧ Inv free out H B x) (op.exec (some (recorded a)) fresh)
      (fun pages x => Inv free (out ++ leaving t op) H B x ∧ ∀ p ∈ pages, 0 ≤ p → p ∈ leaving t op ∨ B p)
      fun _ => Inv free (out ++ leaving t op) H B := by
  have hkeeps : ∀ {x : TableM (σ × Ledger) PUnit}, Keeps free out H B x → leaving t op = [] →
      Triple (fun x => x.1 = t ∧ Inv free out H B x) (x >>= fun _ => pure ([] : List ℤ))
        (fun pages x => Inv free (out ++ leaving t op) H B x ∧ ∀ p ∈ pages, 0 ≤ p → p ∈ leaving t op ∨ B p)
        fun _ => Inv free (out ++ leaving t op) H B := by
    intro x hx hnil
    rw [hnil, List.append_nil]
    exact Triple.bind (hx.pre fun _ h => h.2) fun _ => Triple.pure fun _ h => ⟨h, List.forall_mem_nil _⟩
  cases op with
  | ensurePages ctxSize logicalPos count => exact hkeeps (keeps_ensurePages ha fresh _ _ _) rfl
  | ensureLogicalPageResident logicalPage => exact hkeeps (keeps_ensureLogicalPageResident ha fresh _) rfl
  | ensureLogicalPageRangesResident ranges => exact hkeeps (keeps_ensureLogicalPageRangesResident ha fresh _) rfl
  | releaseLogicalPages start count => exact hkeeps (keeps_releaseLogicalPages ha _ _) rfl
  | releaseLogicalPageRanges ranges => exact hkeeps (keeps_releaseLogicalPageRanges ha _) rfl
  | truncateToLogicalPages logicalPages => exact hkeeps (keeps_truncateToLogicalPages ha _) rfl
  | adoptSharedPages shared => exact hkeeps (keeps_adoptSharedPages fresh (hB shared rfl)) rfl
  | reset => exact hkeeps (keeps_reset ha) rfl
  | detachPagesFrom start =>
      intro x hx
      have hlen : t.owned.length = t.pages.length := hx.1 ▸ hx.2.length_eq
      have hborrowed : ∀ p ∈ t.pages.drop start, 0 ≤ p → p ∈ t.ownedFrom start ∨ B p := by
        intro p hp hnonneg
        obtain ⟨i, hi⟩ := List.mem_iff_getElem?.mp hp
        rw [List.getElem?_drop] at hi
        obtain ⟨b, hentry, -⟩ := entries_getElem? hlen hi
        cases b with
        | true =>
            left
            rw [← List.count_pos_iff, count_ownedFrom hlen, List.count_pos_iff]
            exact List.mem_iff_getElem?.mpr ⟨i, by rwa [List.getElem?_drop]⟩
        | false =>
            right
            refine hx.2.borrowed p ?_ hnonneg
            rw [hx.1]
            exact List.mem_of_getElem? hentry
      refine (detachPagesFrom_spec t start).conseq (fun _ h => h) ?_ (fun _ _ h => h.elim) x hx
      rintro pages y ⟨hy, rfl⟩
      exact ⟨hy, hborrowed⟩

end Operations

/-! ## Many tables -/

/-- Tables that share an allocator, with what they have taken and given back.  `handedOut` are the
pages that left owned entries for a caller, `detached` is all that callers got. -/
structure Tables (ι σ : Type) where
  table : ι → KvPageTable
  allocator : σ
  ledger : ι → Ledger
  handedOut : ι → List ℤ
  detached : List ℤ

namespace Tables

variable {ι : Type} [DecidableEq ι]

/-- How often a page is held for a table. -/
def held (s : Tables ι σ) (i : ι) (p : ℤ) : ℕ := (s.table i).ownedCount p + (s.handedOut i).count p

/-- The state after an operation of a table. -/
def after (s : Tables ι σ) (i : ι) (op : Op) (r : Except String (List ℤ) × KvPageTable × σ × Ledger) :
    Tables ι σ where
  table := Function.update s.table i r.2.1
  allocator := r.2.2.1
  ledger := Function.update s.ledger i r.2.2.2
  handedOut := Function.update s.handedOut i (s.handedOut i ++ leaving (s.table i) op)
  detached := s.detached ++ r.1.toOption.getD []

/-- The tables' operations, in any order: each on one of the tables, with what a new tensor of it
holds. -/
def machine (ι : Type) [DecidableEq ι] (a : KvPhysicalPageAllocator σ) :
    Machine (Tables ι σ) (ι × Op × (ℕ → ℤ)) where
  init s := (∀ i, cleared (s.table i) = s.table i) ∧ (∀ i, s.ledger i = ⟨[], []⟩) ∧ (∀ i, s.handedOut i = []) ∧
    s.detached = []
  step s x := some (s.after x.1 x.2.1
    ((x.2.1.exec (some (recorded a)) x.2.2).exec (s.table x.1, s.allocator, s.ledger x.1)))

/-- Every table holds its pages alone. -/
def Sound (free : σ → ℤ → Prop) (B : ℤ → Prop) (s : Tables ι σ) : Prop :=
  ∀ i, Inv free (s.handedOut i) (fun p => ∃ j, j ≠ i ∧ 0 < s.held j p) B (s.table i, s.allocator, s.ledger i)

variable {a : KvPhysicalPageAllocator σ} {free : σ → ℤ → Prop} {B : ℤ → Prop} {s t : Tables ι σ}

theorem held_after_self (i : ι) (op : Op) (r : Except String (List ℤ) × KvPageTable × σ × Ledger) (p : ℤ) :
    (s.after i op r).held i p = r.2.1.ownedCount p + (s.handedOut i ++ leaving (s.table i) op).count p := by
  unfold held after
  dsimp only
  rw [Function.update_self, Function.update_self]

theorem held_after_of_ne {i j : ι} (hne : j ≠ i) (op : Op)
    (r : Except String (List ℤ) × KvPageTable × σ × Ledger) (p : ℤ) : (s.after i op r).held j p = s.held j p := by
  unfold held after
  dsimp only
  rw [Function.update_of_ne hne, Function.update_of_ne hne]

/-- What a table holds alone after its operation, all tables do. -/
theorem sound_after (hs : s.Sound free B) {i : ι} {op : Op} {r : Except String (List ℤ) × KvPageTable × σ × Ledger}
    (hr : Inv free (s.handedOut i ++ leaving (s.table i) op) (fun p => ∃ j, j ≠ i ∧ 0 < s.held j p) B r.2) :
    (s.after i op r).Sound free B := by
  intro k
  by_cases hk : k = i
  · subst hk
    have hothers : (fun p => ∃ j, j ≠ k ∧ 0 < (s.after k op r).held j p) = fun p => ∃ j, j ≠ k ∧ 0 < s.held j p := by
      funext p
      refine propext (exists_congr fun j => and_congr_right fun hj => ?_)
      rw [held_after_of_ne hj]
    rw [hothers]
    unfold after
    dsimp only
    rw [Function.update_self, Function.update_self, Function.update_self]
    exact hr
  · have hk' := hs k
    -- another table's pages are neither free now nor held by the table of the operation
    have hstill : ∀ p, 0 < s.held k p → ¬ 0 < (s.after i op r).held i p ∧ ¬ free r.2.2.1 p := by
      intro p hp
      refine ⟨?_, hr.others p ⟨k, hk, hp⟩⟩
      rw [held_after_self]
      exact fun hpos => (hr.alone p hpos).1 ⟨k, hk, hp⟩
    have hothers : ∀ p, (fun p => ∃ j, j ≠ k ∧ 0 < (s.after i op r).held j p) p →
        ¬ 0 < s.held k p ∧ ¬ free r.2.2.1 p := by
      rintro p ⟨j, hj, hp⟩
      by_cases hji : j = i
      · subst hji
        refine ⟨fun hpos => (hstill p hpos).1 hp, ?_⟩
        rw [held_after_self] at hp
        exact (hr.alone p hp).2
      · rw [held_after_of_ne hji] at hp
        exact ⟨fun hpos => (hk'.alone p hpos).1 ⟨j, hj, hp⟩, hr.others p ⟨j, hji, hp⟩⟩
    generalize hH : (fun p => ∃ j, j ≠ k ∧ 0 < (s.after i op r).held j p) = H at hothers ⊢
    unfold after
    dsimp only
    rw [Function.update_of_ne hk, Function.update_of_ne hk, Function.update_of_ne hk]
    exact ⟨hk'.length_eq, hk'.nonneg, hk'.balance, hk'.once,
      fun p hpos => ⟨fun h => (hothers p h).1 hpos, (hstill p hpos).2⟩, fun p h => (hothers p h).2, hk'.borrowed⟩

theorem sound_step (ha : Lawful a free) (hs : s.Sound free B) {i : ι} {op : Op} {fresh : ℕ → ℤ}
    (hB : ∀ shared, op = .adoptSharedPages shared → ∀ p ∈ shared, 0 ≤ p → B p)
    (h : (machine ι a).step s (i, op, fresh) = some t) :
    t.Sound free B ∧ ∀ p ∈ t.detached, 0 ≤ p → p ∈ s.detached ∨ p ∈ t.handedOut i ∨ B p := by
  obtain rfl := Option.some.inj h
  have hspec := exec_spec ha fresh (s.table i) op hB (s.table i, s.allocator, s.ledger i) ⟨rfl, hs i⟩
  dsimp only at hspec ⊢
  generalize (op.exec (some (recorded a)) fresh).exec (s.table i, s.allocator, s.ledger i) = r at hspec ⊢
  obtain ⟨result, x⟩ := r
  cases result with
  | error e => exact ⟨sound_after hs hspec, fun p hp _ => .inl (by simpa [after, Except.toOption] using hp)⟩
  | ok pages =>
      refine ⟨sound_after hs hspec.1, ?_⟩
      intro p hp hnonneg
      rcases List.mem_append.mp hp with hp | hp
      · exact .inl hp
      · right
        refine (hspec.2 p hp hnonneg).imp_left fun hleaving => ?_
        unfold after
        dsimp only
        rw [Function.update_self]
        exact List.mem_append_right _ hleaving

/-- A table without pages holds none. -/
theorem sound_init (h : (machine ι a).init s) : s.Sound free B := by
  obtain ⟨hcleared, hledger, hhanded, -⟩ := h
  have hentries : ∀ i e, e ∈ (s.table i).entries → e = (-1, false) := by
    intro i e he
    rw [← hcleared i] at he
    unfold cleared KvPageTable.entries at he
    dsimp only at he
    split_ifs at he
    · obtain ⟨hp, hb⟩ := List.of_mem_zip he
      exact Prod.ext (List.eq_of_mem_replicate hp) (List.eq_of_mem_replicate hb)
    · cases he
  have hcount : ∀ i p, (s.table i).ownedCount p = 0 := by
    intro i p
    rw [ownedCount, List.count_eq_zero]
    intro hp
    cases hentries i _ hp
  have hheld : ∀ i p, s.held i p = 0 := by
    intro i p
    rw [held, hcount, hhanded]
    rfl
  intro i
  refine ⟨?_, ?_, ?_, ?_, ?_, ?_, ?_⟩
  · dsimp only
    rw [← hcleared i]
    unfold cleared
    dsimp only
    split_ifs
    · rw [List.length_replicate, List.length_replicate]
    · rfl
  · dsimp only
    rw [hledger]
    exact List.forall_mem_nil _
  · intro p
    dsimp only
    rw [hledger, hcount, hhanded]
    rfl
  · intro p
    have := hheld i p
    rw [held] at this
    dsimp only
    omega
  · intro p hpos
    have := hheld i p
    rw [held] at this
    dsimp only at hpos
    omega
  · rintro p ⟨j, -, hpos⟩
    rw [hheld] at hpos
    exact absurd hpos (lt_irrefl 0)
  · intro p hp hnonneg
    cases hentries i _ hp
    omega

/-- What a table adopts has been handed to a caller. -/
def FromCallers (s : Tables ι σ) (x : ι × Op × (ℕ → ℤ)) : Prop :=
  match x.2.1 with
  | .adoptSharedPages shared => ∀ p ∈ shared, p ∈ s.detached
  | _ => True

instance (s : Tables ι σ) (x : ι × Op × (ℕ → ℤ)) : Decidable (FromCallers s x) := by
  unfold FromCallers
  split <;> infer_instance

theorem sound_reachable (ha : Lawful a free) (h : (machine ι a).Reachable s) : s.Sound free fun _ => True := by
  have hinv : (machine ι a).Invariant fun s => s.Sound free fun _ => True :=
    ⟨fun _ h => sound_init h, fun s x t hs h => (sound_step ha hs (fun _ _ _ _ _ => trivial) h).1⟩
  exact hinv.reachable h

/-- Tables that adopt only what callers got borrow only what has been handed out, and callers
get nothing else. -/
theorem handedOut_reachable (ha : Lawful a free) (h : ((machine ι a).restrict FromCallers).Reachable s) :
    s.Sound free (fun p => ∃ i, p ∈ s.handedOut i) ∧ ∀ p ∈ s.detached, 0 ≤ p → ∃ i, p ∈ s.handedOut i := by
  have hinv : ((machine ι a).restrict FromCallers).Invariant fun s =>
      s.Sound free (fun p => ∃ i, p ∈ s.handedOut i) ∧ ∀ p ∈ s.detached, 0 ≤ p → ∃ i, p ∈ s.handedOut i := by
    constructor
    · intro s hinit
      have hinit' : (machine ι a).init s := hinit
      refine ⟨sound_init hinit', ?_⟩
      rw [hinit'.2.2.2]
      exact List.forall_mem_nil _
    · rintro s ⟨i, op, fresh⟩ t ⟨hs, hdetached⟩ h
      obtain ⟨hok, h⟩ := Machine.restrict_step.mp h
      have hB : ∀ shared, op = .adoptSharedPages shared → ∀ p ∈ shared, 0 ≤ p → ∃ i, p ∈ s.handedOut i := by
        rintro shared rfl p hp hnonneg
        exact hdetached p (hok p hp) hnonneg
      obtain ⟨ht, hnew⟩ := sound_step ha hs hB h
      have hmono : ∀ p, (∃ i, p ∈ s.handedOut i) → ∃ i, p ∈ t.handedOut i := by
        rintro p ⟨j, hj⟩
        refine ⟨j, ?_⟩
        obtain rfl := Option.some.inj h
        unfold after
        dsimp only
        by_cases hji : j = i
        · subst hji
          rw [Function.update_self]
          exact List.mem_append_left _ hj
        · rwa [Function.update_of_ne hji]
      refine ⟨fun k => ?_, ?_⟩
      · have hk := ht k
        exact ⟨hk.length_eq, hk.nonneg, hk.balance, hk.once, hk.alone, hk.others,
          fun p hp hnonneg => hmono p (hk.borrowed p hp hnonneg)⟩
      · intro p hp hnonneg
        rcases hnew p hp hnonneg with hp | hp | hp
        · exact hmono p (hdetached p hp hnonneg)
        · exact ⟨i, hp⟩
        · exact hmono p hp
  exact hinv.reachable h

end Tables

open Tables

/-- **Page tables.** In every run of tables that share an allocator, throwing calls among
them, a page that a table has taken is as often in an owned entry of it, handed to a caller out of
one, or given back, as it was taken; where it is not given back it is so once, is not free, and is
held for no other table.  Only pages that a table has taken are given back, and those that a step
gives back were in owned entries before it or are taken in it.  Where the tables adopt only what
callers got, what a caller got is in no table's owned entries. -/
theorem pageTables {ι : Type} [DecidableEq ι] {a : KvPhysicalPageAllocator σ} {free : σ → ℤ → Prop}
    (ha : Lawful a free) :
    (∀ s, (machine ι a).Reachable s →
      (∀ i, (s.table i).owned.length = (s.table i).pages.length) ∧
      (∀ i p, (s.ledger i).allocated.count p =
        (s.table i).ownedCount p + (s.handedOut i).count p + (s.ledger i).returned.count p) ∧
      (∀ i p, 0 < (s.table i).ownedCount p + (s.handedOut i).count p →
        (s.table i).ownedCount p + (s.handedOut i).count p = 1 ∧ ¬ free s.allocator p ∧
        ∀ j, j ≠ i → (s.table j).ownedCount p + (s.handedOut j).count p = 0) ∧
      (∀ i, ∀ p ∈ (s.ledger i).returned, 0 ≤ p) ∧
      ∀ i op fresh t, (machine ι a).step s (i, op, fresh) = some t → ∀ p,
        (t.ledger i).returned.count p + (s.ledger i).allocated.count p ≤
          (s.ledger i).returned.count p + (s.table i).ownedCount p + (t.ledger i).allocated.count p) ∧
    ∀ s, ((machine ι a).restrict FromCallers).Reachable s → ∀ p ∈ s.detached, 0 ≤ p →
      (∃ i, p ∈ s.handedOut i) ∧ ¬ free s.allocator p ∧ ∀ i, (s.table i).ownedCount p = 0 := by
  constructor
  · intro s hs
    have hsound := sound_reachable ha hs
    have hbalance : ∀ i p, (s.ledger i).allocated.count p =
        (s.table i).ownedCount p + (s.handedOut i).count p + (s.ledger i).returned.count p :=
      fun i => (hsound i).balance
    refine ⟨fun i => (hsound i).length_eq, hbalance, ?_, ?_, ?_⟩
    · intro i p hpos
      have honce := (hsound i).once p
      obtain ⟨hothers, hfree⟩ := (hsound i).alone p hpos
      refine ⟨le_antisymm honce hpos, hfree, fun j hj => ?_⟩
      by_contra hne
      exact hothers ⟨j, hj, Nat.pos_of_ne_zero hne⟩
    · intro i p hp
      have hpos := List.count_pos_iff.mpr hp
      have hbalance := hbalance i p
      exact (hsound i).nonneg p (List.count_pos_iff.mp (by dsimp only; omega))
    · intro i op fresh t ht p
      have hrun : (machine ι a).run s [(i, op, fresh)] = some t := by
        rw [Machine.run_cons, ht]
        rfl
      have hbalance' := (sound_reachable ha (hs.run hrun) i).balance p
      have hbalance := hbalance i p
      have hmono : (s.handedOut i).count p ≤ (t.handedOut i).count p := by
        obtain rfl := Option.some.inj ht
        unfold after
        dsimp only
        rw [Function.update_self, List.count_append]
        exact Nat.le_add_right _ _
      dsimp only at hbalance'
      omega
  · intro s hs p hp hnonneg
    obtain ⟨hsound, hdetached⟩ := handedOut_reachable ha hs
    obtain ⟨i, hi⟩ := hdetached p hp hnonneg
    have hcount := List.count_pos_iff.mpr hi
    have honce := (hsound i).once p
    obtain ⟨hothers, hfree⟩ := (hsound i).alone p (by dsimp only; omega)
    refine ⟨⟨i, hi⟩, hfree, fun j => ?_⟩
    by_cases hj : j = i
    · subst hj
      dsimp only at honce
      omega
    · by_contra hne
      exact hothers ⟨j, hj, by rw [held]; omega⟩

/-! ## A borrowed page that is handed on -/

/-- A pool that hands out the first page of its list. -/
def samplePool : KvPhysicalPageAllocator (List ℤ) where
  allocatePhysicalPage s :=
    match s.find? (0 ≤ ·) with
    | none => (.error "page pool exhausted", s)
    | some p => (.ok p, s.filter (· ≠ p))
  releasePhysicalPages pages s := s ++ pages
  freePages s := s.length
  physicalPageCapacity s := s.length

theorem samplePool_lawful : Lawful samplePool fun s p => p ∈ s ∧ 0 ≤ p where
  allocate_ok := by
    intro s s' p h
    unfold samplePool at h
    dsimp only at h
    split at h
    next => cases (Prod.mk.inj h).1
    next q hq =>
      obtain ⟨hp, rfl⟩ := Prod.mk.inj h
      obtain rfl := Except.ok.inj hp
      have hnonneg : 0 ≤ q := by simpa using List.find?_some hq
      refine ⟨⟨List.mem_of_find?_eq_some hq, hnonneg⟩, hnonneg, fun r => ?_⟩
      rw [List.mem_filter, decide_eq_true_eq]
      exact and_right_comm
  allocate_error := by
    intro s s' e h
    unfold samplePool at h
    dsimp only at h
    split at h
    next =>
      obtain ⟨-, rfl⟩ := Prod.mk.inj h
      exact fun _ => Iff.rfl
    next => cases (Prod.mk.inj h).1
  release := by
    intro pages hpages s q
    change q ∈ s ++ pages ∧ 0 ≤ q ↔ _
    rw [List.mem_append, or_and_right]
    exact or_congr_right (and_iff_left_of_imp (hpages q))

theorem pageTables_samplePool :
    (∀ s, (machine Bool samplePool).Reachable s →
      (∀ i, (s.table i).owned.length = (s.table i).pages.length) ∧
      (∀ i p, (s.ledger i).allocated.count p =
        (s.table i).ownedCount p + (s.handedOut i).count p + (s.ledger i).returned.count p) ∧
      (∀ i p, 0 < (s.table i).ownedCount p + (s.handedOut i).count p →
        (s.table i).ownedCount p + (s.handedOut i).count p = 1 ∧ ¬ (p ∈ s.allocator ∧ 0 ≤ p) ∧
        ∀ j, j ≠ i → (s.table j).ownedCount p + (s.handedOut j).count p = 0) ∧
      (∀ i, ∀ p ∈ (s.ledger i).returned, 0 ≤ p) ∧
      ∀ i op fresh t, (machine Bool samplePool).step s (i, op, fresh) = some t → ∀ p,
        (t.ledger i).returned.count p + (s.ledger i).allocated.count p ≤
          (s.ledger i).returned.count p + (s.table i).ownedCount p + (t.ledger i).allocated.count p) ∧
    ∀ s, ((machine Bool samplePool).restrict FromCallers).Reachable s → ∀ p ∈ s.detached, 0 ≤ p →
      (∃ i, p ∈ s.handedOut i) ∧ ¬ (p ∈ s.allocator ∧ 0 ≤ p) ∧ ∀ i, (s.table i).ownedCount p = 0 :=
  pageTables samplePool_lawful

/-- Two empty tables over a pool of two pages. -/
def sampleTables : Tables Bool (List ℤ) where
  table _ := ⟨16, 4, "identity", [], [], none, 0, false⟩
  allocator := [0, 1]
  ledger _ := ⟨[], []⟩
  handedOut _ := []
  detached := []

/-- A table that adopts another's page hands it to a caller, and the other still owns it. -/
theorem pageTables_borrowed_detached :
    ∃ s, (machine Bool samplePool).Reachable s ∧
      decide (0 ∈ s.detached ∧ (s.table true).ownedCount 0 = 1) = true := by
  have hinit : (machine Bool samplePool).init sampleTables :=
    ⟨fun _ => rfl, fun _ => rfl, fun _ => rfl, rfl⟩
  have hrun : ((machine Bool samplePool).run sampleTables
      [(true, .ensureLogicalPageResident 0, fun _ => 0), (false, .adoptSharedPages [0], fun _ => 0),
        (false, .detachPagesFrom 0, fun _ => 0)]).any
      (fun s => decide (0 ∈ s.detached ∧ (s.table true).ownedCount 0 = 1)) = true := by
    decide +kernel
  exact Machine.exists_reachable hinit hrun

end Qw3.PageTable
