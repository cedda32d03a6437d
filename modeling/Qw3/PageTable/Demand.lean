import Mathlib.Order.Lattice
import Qw3.PageTable.Table

/-!
# What a call takes from the allocator

The pages that the calls which make logical pages resident take, in their order.

* `demand` — the logical pages that ranges want, from the table's holes and its length.
* `takeAll` — a page for each of some logical pages; `Put` is what it leaves.
* `exec_ensureRanges` — the loop over the ranges takes what they demand.
-/

namespace Qw3.PageTable

open KvPageTable Program

variable {σ : Type}

/-- A hole of the table. -/
def KvPageTable.missing (t : KvPageTable) (i : ℕ) : Bool := (t.pages[i]?).any (· < 0)

/-- What a range wants: the entries up to its end, and its holes. -/
def demandRange (size : ℕ) (missing : ℕ → Bool) (range : ℕ × ℕ) : List ℕ :=
  List.range' size (range.1 + range.2 - size) ++ (List.range' range.1 range.2).filter missing

/-- What ranges want one after the other, and whether all of them are within the capacity.  The
table has `size` entries and the holes `missing`. -/
def demand (maxPages : ℕ) : ℕ → (ℕ → Bool) → List (ℕ × ℕ) → List ℕ × Bool
  | _, _, [] => ([], true)
  | size, missing, range :: ranges =>
      if range.2 = 0 then demand maxPages size missing ranges
      else if maxPages ≤ range.1 ∨ maxPages < range.1 + range.2 then ([], false)
      else
        let rest := demand maxPages (max size (range.1 + range.2))
          (fun i => missing i && !decide (range.1 ≤ i ∧ i < range.1 + range.2)) ranges
        (demandRange size missing range ++ rest.1, rest.2)

/-- A page is put into a hole, or behind the last entry. -/
def KvPageTable.put (t : KvPageTable) (i : ℕ) (page : ℤ) : KvPageTable :=
  if i < t.pages.length then t.fill i page else t.push page

/-- A page for each logical page. -/
def takeAll (a : Option (KvPhysicalPageAllocator σ)) (l : List ℕ) : TableM σ PUnit :=
  l.forM fun i => do
    let page ← takePage a i
    modifyTable (·.put i page)

/-- No logical page is further than behind the last entry. -/
def Climbs : ℕ → List ℕ → Prop
  | _, [] => True
  | n, i :: l => i ≤ n ∧ Climbs (max n (i + 1)) l

/-- The entries that there are after pages are put. -/
def climb (n : ℕ) (l : List ℕ) : ℕ := l.foldl (fun n i => max n (i + 1)) n

/-- How many pages the allocator has; a table without one has no bound. -/
def budget (a : Option (KvPhysicalPageAllocator σ)) (x : KvPageTable × σ) : Option ℕ :=
  a.map fun a => a.freePages x.2

/-- The allocator hands out pages, one fewer of them each time, and throws when it has none.
A table without an allocator has one of the known orders. -/
structure Counts (a : Option (KvPhysicalPageAllocator σ)) : Prop where
  allocate_ok : ∀ {b : KvPhysicalPageAllocator σ}, a = some b → ∀ {s s' : σ} {p : ℤ},
    b.allocatePhysicalPage s = (.ok p, s') → 0 ≤ p ∧ b.freePages s = b.freePages s' + 1
  allocate_error : ∀ {b : KvPhysicalPageAllocator σ}, a = some b → ∀ {s s' : σ} {e : String},
    b.allocatePhysicalPage s = (.error e, s') → b.freePages s = 0

/-- `configure` has checked the order. -/
def KvPageTable.ValidMode (t : KvPageTable) : Prop := t.allocMode ∈ ["identity", "reverse", "evens-first"]

/-- What is left of a table after pages are put at `l`. -/
structure Put (t u : KvPageTable) (l : List ℕ) : Prop where
  frame : u = { t with pages := u.pages, owned := u.owned }
  length_eq : u.pages.length = climb t.pages.length l
  missing_eq : ∀ i, u.missing i = (t.missing i && !decide (i ∈ l))
  same : ∀ {i : ℕ}, i < t.pages.length → i ∉ l → u.pages[i]? = t.pages[i]?

section Proofs

variable {a : Option (KvPhysicalPageAllocator σ)} {t u v : KvPageTable} {i : ℕ} {l m : List ℕ} {n : ℕ} {p : ℤ}

theorem Put.refl (t : KvPageTable) : Put t t [] :=
  ⟨rfl, rfl, fun i => by simp, fun _ _ => rfl⟩

theorem le_climb : n ≤ climb n l := by
  induction l generalizing n with
  | nil => exact le_rfl
  | cons i l ih => exact (le_max_left _ _).trans ih

theorem Put.trans (h : Put t u l) (h' : Put u v m) : Put t v (l ++ m) := by
  refine ⟨?_, ?_, ?_, ?_⟩
  · rw [h'.frame, h.frame]
  · rw [h'.length_eq, h.length_eq, climb, climb, climb, List.foldl_append]
  · intro i
    rw [h'.missing_eq, h.missing_eq, Bool.and_assoc]
    congr 1
    simp only [List.mem_append, Bool.decide_or, Bool.not_or]
  · intro i hi hnot
    rw [List.mem_append, not_or] at hnot
    rw [h'.same (hi.trans_le (by rw [h.length_eq]; exact le_climb)) hnot.2, h.same hi hnot.1]

/-- A page is put behind the last entry or before it. -/
theorem put_put (hi : i ≤ t.pages.length) (hp : 0 ≤ p) : Put t (t.put i p) [i] := by
  unfold KvPageTable.put
  split_ifs with hlt
  · refine ⟨rfl, ?_, ?_, ?_⟩
    · change (t.pages.set i p).length = max t.pages.length (i + 1)
      rw [List.length_set, max_eq_left hlt]
    · intro j
      change ((t.pages.set i p)[j]?).any (· < 0) = _
      by_cases hj : i = j
      · subst hj
        rw [List.getElem?_set_self hlt]
        simp [hp]
      · rw [List.getElem?_set_ne hj, KvPageTable.missing]
        simp [Ne.symm hj]
    · intro j hj hne
      change (t.pages.set i p)[j]? = _
      rw [List.mem_singleton] at hne
      exact List.getElem?_set_ne (Ne.symm hne)
  · obtain rfl : i = t.pages.length := by omega
    refine ⟨rfl, ?_, ?_, ?_⟩
    · change (t.pages ++ [p]).length = max t.pages.length (t.pages.length + 1)
      rw [List.length_append, List.length_singleton, max_eq_right (Nat.le_succ _)]
    · intro j
      change ((t.pages ++ [p])[j]?).any (· < 0) = _
      rcases Nat.lt_trichotomy j t.pages.length with hlt | rfl | hgt
      · rw [List.getElem?_append_left hlt, KvPageTable.missing]
        simp [hlt.ne]
      · rw [List.getElem?_concat_length]
        simp [hp]
      · rw [KvPageTable.missing, List.getElem?_eq_none (by rw [List.length_append, List.length_singleton]; omega),
          List.getElem?_eq_none hgt.le]
        rfl
    · intro j hj hne
      exact List.getElem?_append_left hj

/-- A table that hands out its own pages hands one out for each logical page. -/
theorem allocatePhysicalPage_ok (hmode : t.ValidMode) (hi : i < t.maxPages) :
    ∃ p, t.allocatePhysicalPage i = .ok p ∧ 0 ≤ p := by
  unfold allocatePhysicalPage
  rw [if_neg (not_le.mpr hi)]
  unfold ValidMode at hmode
  split_ifs with hidentity hreverse hevens
  · exact ⟨_, rfl, Int.natCast_nonneg _⟩
  · exact ⟨_, rfl, Int.natCast_nonneg _⟩
  · dsimp only
    rw [if_neg (by split_ifs <;> omega)]
    exact ⟨_, rfl, Int.natCast_nonneg _⟩
  · simp [hidentity, hreverse, hevens] at hmode

variable {x : KvPageTable × σ}

/-- A page is taken: the table stays, and the allocator has one fewer. -/
theorem takePage_exec (ha : Counts a) (hmode : x.1.ValidMode) (hi : i < x.1.maxPages) :
    (∃ p s, (takePage a i).exec x = (.ok p, x.1, s) ∧ 0 ≤ p ∧ ∀ n, budget a x = some n →
        ∃ m, n = m + 1 ∧ budget a (x.1, s) = some m) ∨
      ∃ e s, (takePage a i).exec x = (.error e, x.1, s) ∧ budget a x = some 0 := by
  obtain ⟨t, s⟩ := x
  cases a with
  | none =>
      obtain ⟨p, hp, hnonneg⟩ := allocatePhysicalPage_ok hmode hi
      refine .inl ⟨p, s, ?_, hnonneg, fun n h => by cases h⟩
      change (t.allocatePhysicalPage i, t, s) = _
      rw [hp]
  | some b =>
      change (∃ p s', ((b.allocatePhysicalPage s).1, t, (b.allocatePhysicalPage s).2) = _ ∧ _) ∨
        ∃ e s', ((b.allocatePhysicalPage s).1, t, (b.allocatePhysicalPage s).2) = _ ∧ _
      cases htake : b.allocatePhysicalPage s with
      | mk r s' =>
          cases r with
          | ok p =>
              obtain ⟨hnonneg, hfree⟩ := ha.allocate_ok rfl htake
              refine .inl ⟨p, s', rfl, hnonneg, ?_⟩
              rintro n hn
              refine ⟨b.freePages s', ?_, rfl⟩
              rw [← hfree]
              exact (Option.some.inj hn).symm
          | error e =>
              refine .inr ⟨e, s', rfl, ?_⟩
              exact congrArg some (ha.allocate_error rfl htake)

theorem exec_takeAll_cons (x : KvPageTable × σ) :
    (takeAll a (i :: l)).exec x = match (takePage a i).exec x with
      | (.ok p, y) => (takeAll a l).exec (y.1.put i p, y.2)
      | (.error e, y) => (.error e, y) := by
  unfold takeAll
  rw [exec_forM_cons, exec_bind]
  cases (takePage a i).exec x with
  | mk r y => cases r <;> rfl

theorem exec_takeAll_append (x : KvPageTable × σ) :
    (takeAll a (l ++ m)).exec x = match (takeAll a l).exec x with
      | (.ok _, y) => (takeAll a m).exec y
      | (.error e, y) => (.error e, y) := by
  induction l generalizing x with
  | nil => rfl
  | cons i l ih =>
      rw [List.cons_append, exec_takeAll_cons, exec_takeAll_cons]
      cases (takePage a i).exec x with
      | mk r y =>
          cases r with
          | ok p => exact ih _
          | error e => rfl

/-- Pages are taken one after the other, as many as there are. -/
theorem takeAll_spec (ha : Counts a) (hmode : x.1.ValidMode)
    (hclimbs : Climbs x.1.pages.length l) (hlt : ∀ i ∈ l, i < x.1.maxPages) :
    (∃ y, (takeAll a l).exec x = (.ok ⟨⟩, y) ∧ Put x.1 y.1 l ∧ ∀ n, budget a x = some n → l.length ≤ n) ∨
      ∃ e y n, (takeAll a l).exec x = (.error e, y) ∧ budget a x = some n ∧ n < l.length ∧
        Put x.1 y.1 (l.take n) := by
  induction l generalizing x with
  | nil => exact .inl ⟨x, rfl, Put.refl _, fun _ _ => Nat.zero_le _⟩
  | cons i l ih =>
      obtain ⟨hi, hclimbs⟩ := hclimbs
      have hrest := fun j hj => hlt j (List.mem_cons_of_mem i hj)
      rw [exec_takeAll_cons]
      rcases takePage_exec ha hmode (hlt i List.mem_cons_self) with ⟨p, s, hp, hnonneg, hbudget⟩ | ⟨e, s, he, hnone⟩
      · rw [hp]
        dsimp only
        have hput := put_put hi hnonneg
        have hmode' : (x.1.put i p).ValidMode := by
          rw [hput.frame]
          exact hmode
        have hclimbs' : Climbs (x.1.put i p).pages.length l := by
          rw [hput.length_eq]
          exact hclimbs
        have hrest' : ∀ j ∈ l, j < (x.1.put i p).maxPages := by
          rw [hput.frame]
          exact hrest
        rcases ih (x := (x.1.put i p, s)) hmode' hclimbs' hrest' with ⟨y, hy, hl, hle⟩ | ⟨e, y, n, hy, hn, hless, hl⟩
        · refine .inl ⟨y, hy, hput.trans hl, ?_⟩
          intro n hn
          obtain ⟨m, rfl, hm⟩ := hbudget n hn
          exact Nat.succ_le_succ (hle m hm)
        · refine .inr ⟨e, y, n + 1, hy, ?_, Nat.succ_lt_succ hless, hput.trans hl⟩
          cases hall : budget a x with
          | none =>
              cases a with
              | none => cases hn
              | some b => cases hall
          | some k =>
              obtain ⟨m, rfl, hm⟩ := hbudget k hall
              rw [Option.some.inj (hn.symm.trans hm)]
      · rw [he]
        exact .inr ⟨e, _, 0, rfl, hnone, Nat.succ_pos _, Put.refl _⟩

/-! ## The loops -/

theorem takePage_table (a : Option (KvPhysicalPageAllocator σ)) (i : ℕ) (x : KvPageTable × σ) :
    ((takePage a i).exec x).2.1 = x.1 := by
  cases a <;> rfl

/-- The table grows by pages behind its last entry. -/
theorem exec_growPages (x : KvPageTable × σ) :
    (growPages a n).exec x = (takeAll a (List.range' x.1.pages.length n)).exec x := by
  induction n generalizing x with
  | zero => rfl
  | succ n ih =>
      have hgrow : (growPages a (n + 1)).exec x = match (takePage a x.1.pages.length).exec x with
          | (.ok p, y) => (growPages a n).exec (y.1.push p, y.2)
          | (.error e, y) => (.error e, y) := by
        change exec (takePage a x.1.pages.length >>= fun p => modifyTable (·.push p) >>= fun _ => growPages a n) x = _
        rw [exec_bind]
        cases (takePage a x.1.pages.length).exec x with
        | mk r y => cases r <;> rfl
      have htable := takePage_table a x.1.pages.length x
      rw [hgrow, List.range'_succ, exec_takeAll_cons]
      cases h : (takePage a x.1.pages.length).exec x with
      | mk r y =>
          rw [h] at htable
          cases r with
          | error e => rfl
          | ok p =>
              dsimp only at htable ⊢
              rw [htable, ih, put, if_neg (lt_irrefl _)]
              change (takeAll a (List.range' (x.1.pages ++ [p]).length n)).exec _ = _
              rw [List.length_append, List.length_singleton]

theorem missing_eq (hi : i < t.pages.length) : t.missing i = decide (t.pages.getD i (-1) < 0) := by
  rw [missing, List.getD_eq_getElem?_getD, List.getElem?_eq_getElem hi]
  rfl

/-- The holes among some entries are filled. -/
theorem exec_fillPages (hnodup : l.Nodup) (hlt : ∀ i ∈ l, i < x.1.pages.length) :
    (l.forM (fillPage a)).exec x = (takeAll a (l.filter x.1.missing)).exec x := by
  induction l generalizing x with
  | nil => rfl
  | cons i l ih =>
      obtain ⟨hnot, hnodup⟩ := List.nodup_cons.mp hnodup
      have hi := hlt i List.mem_cons_self
      have hrest := fun j hj => hlt j (List.mem_cons_of_mem i hj)
      have htable := takePage_table a i x
      have hfill : (fillPage a i).exec x = if 0 ≤ x.1.pages.getD i (-1) then (.ok ⟨⟩, x)
          else match (takePage a i).exec x with
            | (.ok p, y) => (.ok ⟨⟩, y.1.fill i p, y.2)
            | (.error e, y) => (.error e, y) := by
        change exec (if 0 ≤ x.1.pages.getD i (-1) then pure ⟨⟩
          else takePage a i >>= fun p => modifyTable (·.fill i p)) x = _
        split_ifs with hnonneg
        · rfl
        · rw [exec_bind]
          cases (takePage a i).exec x with
          | mk r y => cases r <;> rfl
      rw [exec_forM_cons, hfill]
      by_cases hnonneg : 0 ≤ x.1.pages.getD i (-1)
      · have hmissing : x.1.missing i = false := by
          rw [missing_eq hi, decide_eq_false (not_lt.mpr hnonneg)]
        rw [if_pos hnonneg, List.filter_cons_of_neg (by rw [hmissing]; exact Bool.false_ne_true)]
        exact ih hnodup hrest
      · have hmissing : x.1.missing i = true := by
          rw [missing_eq hi, decide_eq_true (not_le.mp hnonneg)]
        rw [if_neg hnonneg, List.filter_cons_of_pos hmissing, exec_takeAll_cons]
        cases h : (takePage a i).exec x with
        | mk r y =>
            rw [h] at htable
            cases r with
            | error e => rfl
            | ok p =>
                dsimp only at htable ⊢
                -- the other entries stay
                have hother : ∀ j ∈ l, (x.1.fill i p).missing j = x.1.missing j := by
                  intro j hj
                  have hne : i ≠ j := by
                    rintro rfl
                    exact hnot hj
                  change ((x.1.pages.set i p)[j]?).any (· < 0) = _
                  rw [List.getElem?_set_ne hne, missing]
                have hlen : ∀ j ∈ l, j < (x.1.fill i p).pages.length := by
                  intro j hj
                  change j < (x.1.pages.set i p).length
                  rw [List.length_set]
                  exact hrest j hj
                rw [htable, ih hnodup hlen, put, if_pos hi, List.filter_congr hother]

theorem climbs_range' (n k : ℕ) : Climbs n (List.range' n k) ∧ climb n (List.range' n k) = n + k := by
  induction k generalizing n with
  | zero => exact ⟨trivial, rfl⟩
  | succ k ih =>
      obtain ⟨hclimbs, hclimb⟩ := ih (n + 1)
      have hmax : max n (n + 1) = n + 1 := max_eq_right (Nat.le_succ n)
      rw [List.range'_succ]
      refine ⟨⟨le_rfl, by rwa [hmax]⟩, ?_⟩
      rw [climb, List.foldl_cons, hmax]
      change climb (n + 1) _ = _
      rw [hclimb]
      omega

theorem climbs_of_lt (h : ∀ i ∈ l, i < n) : Climbs n l ∧ climb n l = n := by
  induction l with
  | nil => exact ⟨trivial, rfl⟩
  | cons i l ih =>
      have hi := h i List.mem_cons_self
      have hmax : max n (i + 1) = n := max_eq_left hi
      obtain ⟨hclimbs, hclimb⟩ := ih fun j hj => h j (List.mem_cons_of_mem i hj)
      refine ⟨⟨hi.le, by rwa [hmax]⟩, ?_⟩
      rw [climb, List.foldl_cons, hmax]
      exact hclimb

theorem climbs_append (hl : Climbs n l) (hm : Climbs (climb n l) m) : Climbs n (l ++ m) := by
  induction l generalizing n with
  | nil => exact hm
  | cons i l ih => exact ⟨hl.1, ih hl.2 hm⟩

theorem climb_append : climb n (l ++ m) = climb (climb n l) m := List.foldl_append

section Range

variable {missing : ℕ → Bool} {range : ℕ × ℕ} {maxPages size : ℕ}

/-- What a range wants is within it, or between the table's end and it. -/
theorem mem_demandRange (h : i ∈ demandRange size missing range) :
    (size ≤ i ∨ range.1 ≤ i ∧ missing i = true) ∧ i < range.1 + range.2 := by
  rw [demandRange, List.mem_append, List.mem_filter, List.mem_range'_1, List.mem_range'_1] at h
  rcases h with h | ⟨h, hmissing⟩
  · exact ⟨.inl h.1, by omega⟩
  · exact ⟨.inr ⟨h.1, hmissing⟩, h.2⟩

theorem climbs_demandRange (hmissing : ∀ i, missing i = true → i < size) :
    Climbs size (demandRange size missing range) ∧
      climb size (demandRange size missing range) = max size (range.1 + range.2) := by
  obtain ⟨hgrow, hend⟩ := climbs_range' size (range.1 + range.2 - size)
  have hholes : ∀ i ∈ (List.range' range.1 range.2).filter missing, i < size + (range.1 + range.2 - size) := by
    intro i hi
    have := hmissing i (List.mem_filter.mp hi).2
    omega
  obtain ⟨hfill, hsame⟩ := climbs_of_lt hholes
  rw [demandRange, climb_append, hend]
  exact ⟨climbs_append hgrow (by rwa [hend]), by rw [hsame]; omega⟩

end Range

theorem missing_lt (h : t.missing i = true) : i < t.pages.length := by
  by_contra hle
  rw [missing, List.getElem?_eq_none (not_lt.mp hle)] at h
  cases h

/-- A range within the capacity takes what it demands. -/
theorem exec_ensureRange (ha : Counts a) (hmode : x.1.ValidMode) {start count : ℕ}
    (hmax : start + count ≤ x.1.maxPages) :
    ((growPages a (start + count - x.1.pages.length) >>= fun _ =>
      (List.range' start count).forM (fillPage a)) : TableM σ PUnit).exec x =
      (takeAll a (demandRange x.1.pages.length x.1.missing (start, count))).exec x := by
  obtain ⟨hclimbs, hend⟩ := climbs_range' x.1.pages.length (start + count - x.1.pages.length)
  have hlt : ∀ i ∈ List.range' x.1.pages.length (start + count - x.1.pages.length), i < x.1.maxPages := by
    intro i hi
    rw [List.mem_range'_1] at hi
    omega
  rw [exec_bind, exec_growPages, demandRange, exec_takeAll_append]
  rcases takeAll_spec ha hmode hclimbs hlt with ⟨y, hy, hput, -⟩ | ⟨e, y, n, hy, -⟩
  · rw [hy]
    dsimp only
    have hlen : ∀ i ∈ List.range' start count, i < y.1.pages.length := by
      intro i hi
      rw [hput.length_eq, hend]
      rw [List.mem_range'_1] at hi
      omega
    -- the new entries are no holes
    have hholes : ∀ i ∈ List.range' start count, y.1.missing i = x.1.missing i := by
      intro i _
      rw [hput.missing_eq]
      cases hmissing : x.1.missing i with
      | false => rfl
      | true =>
          have hi := missing_lt hmissing
          rw [decide_eq_false]
          · rfl
          · rw [List.mem_range'_1]
            omega
    rw [exec_fillPages List.nodup_range' hlen, List.filter_congr hholes]
  · rw [hy]

/-- **The loop over the ranges** takes what they demand, and throws where a range is beyond the
capacity. -/
theorem exec_ensureRanges (ha : Counts a) (ranges : List (ℕ × ℕ)) (hmode : x.1.ValidMode) :
    (ranges.forM (ensureRange a)).exec x =
      match (takeAll a (demand x.1.maxPages x.1.pages.length x.1.missing ranges).1).exec x with
      | (.ok _, y) =>
          if (demand x.1.maxPages x.1.pages.length x.1.missing ranges).2 then (.ok ⟨⟩, y)
          else (.error "KV logical page range exceeds page capacity", y)
      | (.error e, y) => (.error e, y) := by
  induction ranges generalizing x with
  | nil => rfl
  | cons range ranges ih =>
      obtain ⟨start, count⟩ := range
      have hbody : (ensureRange a (start, count)).exec x =
          if count = 0 then (.ok ⟨⟩, x)
          else if x.1.maxPages ≤ start ∨ x.1.maxPages < start + count then
            (.error "KV logical page range exceeds page capacity", x)
          else (growPages a (start + count - x.1.pages.length) >>= fun _ =>
            (List.range' start count).forM (fillPage a)).exec x := by
        unfold ensureRange
        rw [exec_bind]
        change exec (if count = 0 then _ else if x.1.maxPages ≤ start ∨ x.1.maxPages < start + count then _
          else _) x = _
        split_ifs <;> rfl
      rw [exec_forM_cons, hbody, demand]
      dsimp only
      by_cases hcount : count = 0
      · rw [if_pos hcount, if_pos hcount]
        exact ih hmode
      rw [if_neg hcount, if_neg hcount]
      by_cases hbeyond : x.1.maxPages ≤ start ∨ x.1.maxPages < start + count
      · rw [if_pos hbeyond, if_pos hbeyond]
        rfl
      · rw [if_neg hbeyond, if_neg hbeyond]
        have hmax : start + count ≤ x.1.maxPages := by omega
        have hclimb : Climbs x.1.pages.length (demandRange x.1.pages.length x.1.missing (start, count)) ∧ _ :=
          climbs_demandRange fun i hi => missing_lt hi
        obtain ⟨hclimbs, hend⟩ := hclimb
        have hlt : ∀ i ∈ demandRange x.1.pages.length x.1.missing (start, count), i < x.1.maxPages :=
          fun i hi => (mem_demandRange hi).2.trans_le hmax
        rw [exec_ensureRange ha hmode hmax, exec_takeAll_append]
        rcases takeAll_spec ha hmode hclimbs hlt with ⟨y, hy, hput, -⟩ | ⟨e, y, n, hy, -⟩
        · rw [hy]
          dsimp only
          have hmode' : y.1.ValidMode := by
            rw [hput.frame]
            exact hmode
          have hmaxPages : y.1.maxPages = x.1.maxPages := by rw [hput.frame]
          -- what the range has left of the holes
          have hmissing : y.1.missing =
              fun i => x.1.missing i && !decide (start ≤ i ∧ i < start + count) := by
            funext i
            rw [hput.missing_eq]
            cases hi : x.1.missing i with
            | false => rfl
            | true =>
                have hlength := missing_lt hi
                have hmem : i ∈ demandRange x.1.pages.length x.1.missing (start, count) ↔
                    start ≤ i ∧ i < start + count := by
                  rw [demandRange, List.mem_append, List.mem_filter, List.mem_range'_1, List.mem_range'_1, hi]
                  constructor
                  · rintro (h | h)
                    · omega
                    · exact h.1
                  · exact fun h => .inr ⟨h, rfl⟩
                rw [decide_eq_decide.mpr hmem]
          rw [ih hmode', hmaxPages, hput.length_eq, hend, hmissing]
        · rw [hy]

end Proofs

end Qw3.PageTable
