import Qw3.PageTable.Table
import Qw3.Store.History
import Qw3.Store.PageSpans

/-!
# The window's page list

`kvmem_append_repository_window` maps the pages of a history interval behind those
that the window has.

* `appendRepositoryWindow`, `appendPieces` — one call, and a call for each piece.
* `pagesOf` — the pages that a call visits; `appendPages_iff`, what the visits leave.
* `Appended` — the pages of the first tokens of an interval are in the window.
* `windowAppend` — an interval in pieces is an interval at once.
-/

namespace Qw3.PageTable

open Qw3.Store
open Qw3.Repository (uint64Max)

/-- What an append to the window throws, without the texts. -/
inductive WindowError
  | storage (e : StorageError)
  | pages (e : PageError)
  | notResident | wrongAlias | pageGap
  deriving DecidableEq, Repr

/-- The loop body for a storage page and its window page. -/
def appendPage (t : KvPageTable) (window : List ℤ) (page : ℕ × ℕ) : Except WindowError (List ℤ) :=
  match t.pages[page.1]? with
  | none => throw .notResident
  | some physical =>
      if physical < 0 then throw .notResident
      else
        match window[page.2]? with
        | some present => if present ≠ physical then throw .wrongAlias else pure window
        | none => if page.2 ≠ window.length then throw .pageGap else pure (window ++ [physical])

/-- The pages of a page span, in storage and window. -/
def expand (ps : PageSpan) : List (ℕ × ℕ) :=
  (List.range ps.pageCount).map fun i => (ps.storagePage + i, ps.windowPage + i)

/-- `kvmem_append_repository_window(table, window, begin, count, window_begin)`. -/
def appendRepositoryWindow (s : State) (t : KvPageTable) (window : List ℤ) (start count windowBegin : ℕ) :
    Except WindowError (List ℤ) := do
  let view ← (s.repositoryStorage start count).mapError .storage
  let spans ← (kvmemStoragePageSpans (view.map Prod.fst) t.pageSize windowBegin).mapError .pages
  (spans.flatMap expand).foldlM (appendPage t) window

/-- An interval of which `done` tokens are in the window is appended in pieces. -/
def appendPieces (s : State) (t : KvPageTable) (start : ℕ) : ℕ → List ℕ → List ℤ → Except WindowError (List ℤ)
  | _, [], window => pure window
  | done, count :: rest, window => do
      let window ← appendRepositoryWindow s t window (start + done) count done
      appendPieces s t start (done + count) rest window

/-! ## The pages of a call -/

/-- The pages of spans, one span after the other. -/
def pagesOf (size : ℕ) : ℕ → List Span → List (ℕ × ℕ)
  | _, [] => []
  | window, sp :: rest => expand (sp.pages size window) ++ pagesOf size (window + sp.tokenCount) rest

/-- All tokens of spans. -/
def total (spans : List Span) : ℕ := (spans.map Span.tokenCount).sum

section Pages

variable {size history window i : ℕ} {spans : List Span} {out out' : List PageSpan} {ps : PageSpan}

/-- Page spans that are joined have the same pages. -/
theorem expand_addPages :
    (addPages out ps).reverse.flatMap expand = out.reverse.flatMap expand ++ expand ps := by
  cases out with
  | nil => simp [addPages]
  | cons back rest =>
      rw [addPages]
      split
      next hnext =>
        obtain ⟨hstorage, hwindow⟩ := hnext
        have hjoin : expand { back with pageCount := back.pageCount + ps.pageCount } = expand back ++ expand ps := by
          unfold expand
          dsimp only
          rw [List.range_add, List.map_append, List.map_map]
          congr 1
          refine List.map_congr_left fun i _ => ?_
          rw [← hstorage, ← hwindow, Function.comp_apply, Nat.add_assoc, Nat.add_assoc]
        rw [List.reverse_cons, List.flatMap_append, List.flatMap_singleton, hjoin, List.reverse_cons,
          List.flatMap_append, List.flatMap_singleton, List.append_assoc]
      next =>
        rw [List.reverse_cons, List.flatMap_append, List.flatMap_singleton]

/-- The page spans have the pages of the spans. -/
theorem expand_pageSpansLoop (h : pageSpansLoop size spans history window out = .ok out') :
    out'.reverse.flatMap expand = out.reverse.flatMap expand ++ pagesOf size window spans := by
  induction spans generalizing history window out with
  | nil =>
      obtain rfl := Except.ok.inj h
      exact (List.append_nil _).symm
  | cons sp rest ih =>
      rw [pageSpansLoop] at h
      split at h
      next => cases h
      next => rw [ih h, expand_addPages, pagesOf, List.append_assoc]

theorem expand_kvmemStoragePageSpans (h : kvmemStoragePageSpans spans size window = .ok out) :
    out.flatMap expand = pagesOf size window spans := by
  unfold kvmemStoragePageSpans at h
  split at h
  next => cases h
  next =>
    obtain ⟨back, hloop, rfl⟩ := Except.map_eq_ok.mp h
    exact expand_pageSpansLoop hloop

/-- What a span list that is accepted says about each next span. -/
structure Aligned (size window : ℕ) (spans : List Span) : Prop where
  nonempty : ∀ sp ∈ spans, 0 < sp.tokenCount
  place : ∀ i sp, spans[i]? = some sp → sp.storageBegin % size = (window + tokensBefore spans i) % size
  boundary : ∀ i sp, spans[i]? = some sp → i ≠ 0 → (window + tokensBefore spans i) % size = 0

theorem tokensBefore_succ (sp : Span) (spans : List Span) (i : ℕ) :
    tokensBefore (sp :: spans) (i + 1) = sp.tokenCount + tokensBefore spans i := by
  simp [tokensBefore]

theorem aligned_of_accepted (h : Accepted spans size window) : Aligned size window spans := by
  refine ⟨fun sp hsp => ?_, fun i sp hsp => (h.each i sp hsp).aligned, h.boundary⟩
  obtain ⟨i, hi⟩ := List.mem_iff_getElem?.mp hsp
  exact (h.each i sp hi).nonempty

theorem Aligned.tail {sp : Span} (h : Aligned size window (sp :: spans)) :
    Aligned size (window + sp.tokenCount) spans := by
  refine ⟨fun q hq => h.nonempty q (List.mem_cons_of_mem _ hq), fun i q hq => ?_, fun i q hq hi => ?_⟩
  · rw [Nat.add_assoc, ← tokensBefore_succ]
    exact h.place (i + 1) q hq
  · rw [Nat.add_assoc, ← tokensBefore_succ]
    exact h.boundary (i + 1) q hq (Nat.succ_ne_zero i)

theorem map_snd_expand : (expand ps).map Prod.snd = List.range' ps.windowPage ps.pageCount := by
  unfold expand
  rw [List.map_map, List.range'_eq_map_range]
  rfl

theorem range'_sub_append {a b c : ℕ} (hab : a ≤ b) (hbc : b ≤ c) :
    List.range' a (b - a) ++ List.range' b (c - b) = List.range' a (c - a) := by
  have hjoin : List.range' a (b - a) ++ List.range' (a + (b - a)) (c - b) = List.range' a (b - a + (c - b)) :=
    List.range'_append_1
  rwa [Nat.add_sub_cancel' hab, show b - a + (c - b) = c - a by omega] at hjoin

/-- **The pages of a call** are one window page after the other, from that of its first token to that of
its last. -/
theorem map_snd_pagesOf (hsize : 0 < size) (h : Aligned size window spans) (hne : spans ≠ []) :
    (pagesOf size window spans).map Prod.snd =
      List.range' (window / size) ((window + total spans - 1) / size + 1 - window / size) := by
  induction spans generalizing window with
  | nil => exact absurd rfl hne
  | cons sp rest ih =>
      have hpos := h.nonempty sp List.mem_cons_self
      have hend : (sp.pages size window).pageCount =
          (window + sp.tokenCount - 1) / size + 1 - window / size := Span.pages_end hsize (h.place 0 sp rfl) hpos
      have hpage : (sp.pages size window).windowPage = window / size := rfl
      have hle : window / size ≤ (window + sp.tokenCount - 1) / size := Nat.div_le_div_right (by omega)
      rw [pagesOf, List.map_append, map_snd_expand, hpage, hend]
      cases rest with
      | nil =>
          rw [pagesOf, List.map_nil, List.append_nil, total]
          rfl
      | cons sp' rest =>
          -- the next span begins a page
          have hzero : (window + sp.tokenCount) % size = 0 := by
            simpa [tokensBefore] using h.boundary 1 sp' rfl Nat.one_ne_zero
          have hlast : (window + sp.tokenCount - 1) / size + 1 = (window + sp.tokenCount) / size := by
            obtain ⟨n, hn⟩ := Nat.exists_eq_add_of_lt (by omega : 0 < window + sp.tokenCount)
            rw [Nat.zero_add] at hn
            rw [hn, Nat.add_sub_cancel, Nat.succ_div_of_dvd (hn ▸ Nat.dvd_of_mod_eq_zero hzero)]
          have htotal : window + total (sp :: sp' :: rest) = window + sp.tokenCount + total (sp' :: rest) := by
            unfold total
            rw [List.map_cons, List.sum_cons]
            omega
          have hpos' : 0 < total (sp' :: rest) := by
            have := h.nonempty sp' (by simp)
            unfold total
            rw [List.map_cons, List.sum_cons]
            omega
          have hmono : (window + sp.tokenCount) / size ≤ (window + sp.tokenCount + total (sp' :: rest) - 1) / size :=
            Nat.div_le_div_right (by omega)
          rw [ih h.tail (List.cons_ne_nil _ _), htotal, hlast]
          exact range'_sub_append (by omega) (by omega)

/-- A page of a call is that of one of its tokens. -/
theorem mem_pagesOf (hsize : 0 < size) (h : Aligned size window spans) {page : ℕ × ℕ}
    (hpage : page ∈ pagesOf size window spans) : ∃ i address, tokenAddress spans i = some address ∧
      page = (address / size, (window + i) / size) ∧ i < total spans := by
  induction spans generalizing window with
  | nil => cases hpage
  | cons sp rest ih =>
      have hpos := h.nonempty sp List.mem_cons_self
      have hplace : sp.storageBegin % size = window % size := h.place 0 sp rfl
      have htotal : total (sp :: rest) = sp.tokenCount + total rest := by
        unfold total
        rw [List.map_cons, List.sum_cons]
      rw [pagesOf] at hpage
      rcases List.mem_append.mp hpage with hpage | hpage
      · obtain ⟨k, hk, rfl⟩ := List.mem_map.mp hpage
        have hend := Span.pages_end hsize hplace hpos
        rw [List.mem_range, hend] at hk
        -- the first token of the page, or the first of the span
        have hlast : size * (window / size + k) ≤ window + sp.tokenCount - 1 :=
          Nat.mul_comm _ _ ▸ (Nat.le_div_iff_mul_le hsize).mp (by omega)
        have hfirst : (window + (size * (window / size + k) - window)) / size = window / size + k := by
          cases k with
          | zero => rw [Nat.add_zero, Nat.sub_eq_zero_of_le (Nat.mul_div_le _ _), Nat.add_zero]
          | succ k =>
              have hlt := Nat.lt_mul_div_succ window hsize
              have hmono : size * (window / size + 1) ≤ size * (window / size + (k + 1)) :=
                Nat.mul_le_mul_left _ (by omega)
              rw [Nat.add_sub_cancel' (by omega), Nat.mul_div_cancel_left _ hsize]
        have hin : size * (window / size + k) - window < sp.tokenCount := by omega
        obtain ⟨⟨-, -, hstorage⟩, -⟩ := Span.pages_maps hsize hplace hin
        refine ⟨size * (window / size + k) - window, sp.storageBegin + (size * (window / size + k) - window),
          if_pos hin, Prod.ext ?_ hfirst.symm, by omega⟩
        rw [hstorage, hfirst]
        show _ = sp.storageBegin / size + (window / size + k - window / size)
        rw [Nat.add_sub_cancel_left]
        rfl
      · obtain ⟨i, address, haddress, rfl, hi⟩ := ih h.tail hpage
        refine ⟨sp.tokenCount + i, address, ?_, ?_, by omega⟩
        · rw [tokenAddress, if_neg (by omega), Nat.add_sub_cancel_left]
          exact haddress
        · rw [Nat.add_assoc]

/-- Each token is on a page of the call, at its place. -/
theorem token_mem_pagesOf (hsize : 0 < size) (h : Aligned size window spans) {address : ℕ}
    (haddress : tokenAddress spans i = some address) :
    (address / size, (window + i) / size) ∈ pagesOf size window spans ∧
      address % size = (window + i) % size := by
  induction spans generalizing window i with
  | nil => cases haddress
  | cons sp rest ih =>
      rw [tokenAddress] at haddress
      rw [pagesOf]
      by_cases hi : i < sp.tokenCount
      · rw [if_pos hi] at haddress
        obtain rfl := Option.some.inj haddress
        obtain ⟨⟨hlow, hhigh, hstorage⟩, hmod⟩ := Span.pages_maps hsize (h.place 0 sp rfl) hi
        change window / size ≤ (window + i) / size at hlow
        change (window + i) / size < window / size + (sp.pages size window).pageCount at hhigh
        change _ = sp.storageBegin / size + ((window + i) / size - window / size) at hstorage
        refine ⟨List.mem_append_left _ (List.mem_map.mpr ⟨(window + i) / size - window / size, ?_, ?_⟩), hmod.symm⟩
        · rw [List.mem_range]
          omega
        · refine Prod.ext ?_ ?_
          · exact hstorage.symm
          · show window / size + ((window + i) / size - window / size) = _
            omega
      · rw [if_neg hi] at haddress
        obtain ⟨hmem, hmod⟩ := ih h.tail haddress
        have hoffset : window + sp.tokenCount + (i - sp.tokenCount) = window + i := by omega
        rw [hoffset] at hmem hmod
        exact ⟨List.mem_append_right _ hmem, hmod⟩

end Pages

/-! ## What the visits leave -/

section Visits

variable {t : KvPageTable} {window window' : List ℤ} {pages : List (ℕ × ℕ)} {first n : ℕ}

/-- A page is resident, and the window has it. -/
def Shows (t : KvPageTable) (window : List ℤ) (page : ℕ × ℕ) : Prop :=
  ∃ physical, t.pages[page.1]? = some physical ∧ 0 ≤ physical ∧ window[page.2]? = some physical

theorem appendPage_ok {page : ℕ × ℕ} (h : appendPage t window page = .ok window') :
    Shows t window' page ∧ window <+: window' ∧ window'.length = max window.length (page.2 + 1) := by
  unfold appendPage at h
  split at h
  next => cases h
  next physical hphysical =>
    by_cases hneg : physical < 0
    · rw [if_pos hneg] at h
      cases h
    rw [if_neg hneg] at h
    split at h
    next present hpresent =>
      split_ifs at h with hne
      obtain rfl := Except.ok.inj h
      rw [not_not] at hne
      have hlt := (List.getElem?_eq_some_iff.mp hpresent).1
      exact ⟨⟨physical, hphysical, not_lt.mp hneg, hne ▸ hpresent⟩, List.prefix_rfl, by omega⟩
    next hnone =>
      split_ifs at h with hgap
      obtain rfl := Except.ok.inj h
      rw [not_not] at hgap
      refine ⟨⟨physical, hphysical, not_lt.mp hneg, ?_⟩, List.prefix_append _ _, ?_⟩
      · rw [hgap, List.getElem?_concat_length]
      · rw [List.length_append, List.length_singleton]
        omega

/-- A page that a longer window shows is appended. -/
theorem appendPage_of_shows {page : ℕ × ℕ} (hle : page.2 ≤ window.length) (hfront : window <+: window')
    (hshows : Shows t window' page) :
    ∃ u, appendPage t window page = .ok u ∧ u <+: window' := by
  obtain ⟨physical, hphysical, hnonneg, hwindow⟩ := hshows
  unfold appendPage
  rw [hphysical]
  dsimp only
  rw [if_neg (not_lt.mpr hnonneg)]
  obtain ⟨more, rfl⟩ := hfront
  rcases hle.lt_or_eq with hlt | heq
  · rw [List.getElem?_append_left hlt] at hwindow
    rw [hwindow]
    exact ⟨window, if_neg (not_not.mpr rfl), List.prefix_append _ _⟩
  · rw [List.getElem?_eq_none heq.ge]
    dsimp only
    rw [if_neg (not_not.mpr heq)]
    refine ⟨_, rfl, ?_⟩
    rw [heq, List.getElem?_append_right le_rfl, Nat.sub_self] at hwindow
    cases more with
    | nil => cases hwindow
    | cons p more =>
        obtain rfl : p = physical := Option.some.inj hwindow
        exact ⟨more, by simp⟩

/-- **The visits of consecutive window pages** make of a window the one window that shows their pages. -/
theorem appendPages_iff (hpages : pages.map Prod.snd = List.range' first n) (hfirst : first ≤ window.length) :
    pages.foldlM (appendPage t) window = .ok window' ↔
      (∀ page ∈ pages, Shows t window' page) ∧ window <+: window' ∧
        window'.length = max window.length (first + n) := by
  induction n generalizing pages first window with
  | zero =>
      obtain rfl : pages = [] := by simpa using hpages
      have hmax : max window.length (first + 0) = window.length := max_eq_left hfirst
      rw [hmax]
      constructor
      · intro h
        obtain rfl := Except.ok.inj h
        exact ⟨List.forall_mem_nil _, List.prefix_rfl, rfl⟩
      · rintro ⟨-, hfront, hlength⟩
        rw [hfront.eq_of_length hlength.symm]
        rfl
  | succ n ih =>
      cases pages with
      | nil => simp [List.range'_succ] at hpages
      | cons page rest =>
          rw [List.range'_succ, List.map_cons, List.cons.injEq] at hpages
          obtain ⟨hpage, hrest⟩ := hpages
          rw [List.foldlM_cons, Except.bind_eq_ok]
          constructor
          · rintro ⟨u, hu, h⟩
            obtain ⟨hshows, hfront, hlength⟩ := appendPage_ok hu
            obtain ⟨hall, hfront', hlength'⟩ := (ih hrest (by omega)).mp h
            refine ⟨List.forall_mem_cons.mpr ⟨?_, hall⟩, hfront.trans hfront', by omega⟩
            obtain ⟨physical, hphysical, hnonneg, hwindow⟩ := hshows
            refine ⟨physical, hphysical, hnonneg, ?_⟩
            obtain ⟨more, rfl⟩ := hfront'
            rw [List.getElem?_append_left (by omega), hwindow]
          · rintro ⟨hall, hfront, hlength⟩
            obtain ⟨hshows, hall⟩ := List.forall_mem_cons.mp hall
            obtain ⟨u, hu, hfront'⟩ := appendPage_of_shows (hpage.le.trans hfirst) hfront hshows
            obtain ⟨-, -, hlength'⟩ := appendPage_ok hu
            exact ⟨u, hu, (ih hrest (by omega)).mpr ⟨hall, hfront', by omega⟩⟩

end Visits

/-! ## The tokens of an interval -/

section Tokens

variable {spans : List Span} {start stop i address : ℕ} {G : Placement}

theorem begin_of_partition (h : Partition start stop spans) {sp : Span} (hsp : spans[i]? = some sp) :
    sp.historyBegin = start + tokensBefore spans i := by
  induction spans generalizing start i with
  | nil => cases hsp
  | cons q rest ih =>
      obtain ⟨hbegin, -, -, hrest⟩ := h
      cases i with
      | zero =>
          obtain rfl := Option.some.inj hsp
          exact hbegin
      | succ i =>
          rw [tokensBefore_succ, ← Nat.add_assoc]
          exact ih hrest hsp

theorem total_of_partition (h : Partition start stop spans) : start + total spans = stop := by
  induction spans generalizing start with
  | nil => exact h
  | cons q rest ih =>
      have hrest := ih h.2.2.2
      unfold total at hrest ⊢
      rw [List.map_cons, List.sum_cons]
      omega

/-- A token of a partition is where the history has it. -/
theorem placed_of_partition (h : Partition start stop spans) (hplaced : ∀ sp ∈ spans, sp.PlacedBy G)
    (haddress : tokenAddress spans i = some address) : ∃ h, G (start + i) = some (h, address) := by
  induction spans generalizing start i with
  | nil => cases haddress
  | cons q rest ih =>
      obtain ⟨hbegin, -, -, hrest⟩ := h
      rw [tokenAddress] at haddress
      by_cases hi : i < q.tokenCount
      · rw [if_pos hi] at haddress
        obtain rfl := Option.some.inj haddress
        refine ⟨q.handle, ?_⟩
        rw [← hbegin]
        exact hplaced q List.mem_cons_self i hi
      · rw [if_neg hi] at haddress
        have hoffset : start + q.tokenCount + (i - q.tokenCount) = start + i := by omega
        rw [← hoffset]
        exact ih hrest (fun sp hsp => hplaced sp (List.mem_cons_of_mem _ hsp)) haddress

/-- Each token is in one of the spans. -/
theorem exists_tokenAddress (hi : i < total spans) :
    ∃ address, tokenAddress spans i = some address ∧ ∃ (j : ℕ) (sp : Span), spans[j]? = some sp ∧
      address < sp.storageBegin + sp.tokenCount ∧ i < tokensBefore spans j + sp.tokenCount := by
  induction spans generalizing i with
  | nil => exact absurd hi (Nat.not_lt_zero _)
  | cons q rest ih =>
      rw [tokenAddress]
      by_cases hlt : i < q.tokenCount
      · rw [if_pos hlt]
        exact ⟨_, rfl, 0, q, rfl, by omega, by omega⟩
      · rw [if_neg hlt]
        have hrest : i - q.tokenCount < total rest := by
          unfold total at hi ⊢
          rw [List.map_cons, List.sum_cons] at hi
          omega
        obtain ⟨address, haddress, j, sp, hsp, hend, hin⟩ := ih hrest
        refine ⟨address, haddress, j + 1, sp, hsp, hend, ?_⟩
        rw [tokensBefore_succ]
        omega

end Tokens

/-! ## An interval in pieces -/

/-- A token of the interval from `start` is in the window: on its page, at its place in it. -/
structure InWindow (s : State) (t : KvPageTable) (start : ℕ) (window : List ℤ) (i address : ℕ) : Prop where
  placed : ∃ h, s.placement (start + i) = some (h, address)
  shows : Shows t window (address / t.pageSize, i / t.pageSize)
  offset : address % t.pageSize = i % t.pageSize
  address_lt : address < int32Max

/-- The first `n` tokens of the interval from `start` are in the window, and nothing else. -/
structure Appended (s : State) (t : KvPageTable) (start n : ℕ) (window : List ℤ) : Prop where
  length_eq : window.length = (n + t.pageSize - 1) / t.pageSize
  token : ∀ i < n, ∃ address, InWindow s t start window i address
  stored : ∀ i < n, s.Stored (start + i)
  size_pos : n ≠ 0 → 0 < t.pageSize
  history_le : n ≠ 0 → start + n ≤ uint64Max
  window_le : n ≤ int32Max

section Pieces

variable {s : State} {t : KvPageTable} {start n count : ℕ} {window window' : List ℤ}

theorem appended_nil (hsize : 0 < t.pageSize) : Appended s t start 0 [] where
  length_eq := by
    rw [Nat.zero_add, Nat.div_eq_of_lt (by omega)]
    rfl
  token i hi := absurd hi (Nat.not_lt_zero i)
  stored i hi := absurd hi (Nat.not_lt_zero i)
  size_pos h := absurd rfl h
  history_le h := absurd rfl h
  window_le := Nat.zero_le _

theorem ceil_pred {size : ℕ} (hsize : 0 < size) (hn : 0 < n) : (n + size - 1) / size = (n - 1) / size + 1 := by
  rw [show n + size - 1 = n - 1 + size by omega, Nat.add_div_right _ hsize]

/-- **One call** appends its tokens. -/
theorem Appended.step (hs : s.Inv) (h : Appended s t start n window)
    (hcall : appendRepositoryWindow s t window (start + n) count n = .ok window') :
    Appended s t start (n + count) window' := by
  obtain ⟨view, hview, hcall⟩ := Except.bind_eq_ok.mp hcall
  obtain ⟨pss, hpss, hcall⟩ := Except.bind_eq_ok.mp hcall
  rw [Except.mapError_eq_ok] at hview hpss
  obtain ⟨hcut, hin, hmax, hstored⟩ := repositoryStorage_cut hs hview
  have haccepted := (kvmemStoragePageSpans_isOk_iff _ _ _).mp ⟨pss, hpss⟩
  have hsize := haccepted.size_pos
  have haligned := aligned_of_accepted haccepted
  have hpartition := hcut.partition hs.block_pos
  have htotal : total (view.map Prod.fst) = count := by
    have := total_of_partition hpartition
    omega
  have hplaced : ∀ sp ∈ view.map Prod.fst, sp.PlacedBy s.placement := by
    intro sp hsp
    obtain ⟨e, he, rfl⟩ := List.mem_map.mp hsp
    exact hs.placedBy hcut hstored (hin e he).1 hsp
  rw [expand_kvmemStoragePageSpans hpss] at hcall
  by_cases hzero : count = 0
  · -- nothing is appended
    have hnil : view = [] := by
      cases view with
      | nil => rfl
      | cons e rest =>
          have hpos := haligned.nonempty e.1 (by simp)
          unfold total at htotal
          rw [List.map_cons, List.map_cons, List.sum_cons] at htotal
          omega
    rw [hnil] at hcall
    obtain rfl : window = window' := Except.ok.inj hcall
    rwa [hzero, Nat.add_zero]
  have hne : view.map Prod.fst ≠ [] := by
    intro hnil
    rw [hnil] at htotal
    exact hzero htotal.symm
  have hsnd := map_snd_pagesOf hsize haligned hne
  rw [htotal] at hsnd
  have hfirst : n / t.pageSize ≤ window.length := by
    rw [h.length_eq]
    exact Nat.div_le_div_right (by omega)
  obtain ⟨hall, hfront, hlength⟩ := (appendPages_iff hsnd hfirst).mp hcall
  refine ⟨?_, fun i hi => ?_, fun i hi => ?_, fun _ => hsize, fun _ => by omega, ?_⟩
  · have hmono : n / t.pageSize ≤ (n + count - 1) / t.pageSize := Nat.div_le_div_right (by omega)
    have hceil := ceil_pred hsize (by omega : 0 < n + count)
    have hold : window.length ≤ (n + count - 1) / t.pageSize + 1 := by
      rw [h.length_eq, ← hceil]
      exact Nat.div_le_div_right (by omega)
    rw [hlength, hceil]
    generalize (n + count - 1) / t.pageSize = last at hmono hold ⊢
    omega
  · by_cases hold : i < n
    · -- what the window had stays
      obtain ⟨address, hplace, ⟨physical, hphysical, hnonneg, hwindow⟩, hoffset, hlt⟩ := h.token i hold
      refine ⟨address, hplace, ⟨physical, hphysical, hnonneg, ?_⟩, hoffset, hlt⟩
      obtain ⟨more, rfl⟩ := hfront
      rw [List.getElem?_append_left (List.getElem?_eq_some_iff.mp hwindow).1, hwindow]
    · obtain ⟨address, haddress, j, sp, hsp, hend, -⟩ :=
        exists_tokenAddress (by omega : i - n < total (view.map Prod.fst))
      obtain ⟨hmem, hoffset⟩ := token_mem_pagesOf hsize haligned haddress
      have hplace := placed_of_partition hpartition hplaced haddress
      rw [Nat.add_assoc, Nat.add_sub_cancel' (not_lt.mp hold)] at hplace
      rw [Nat.add_sub_cancel' (not_lt.mp hold)] at hmem hoffset
      exact ⟨address, hplace, hall _ hmem, hoffset, hend.trans_le (haccepted.each j sp hsp).storage_le⟩
  · by_cases hold : i < n
    · exact h.stored i hold
    · exact hstored (start + i) (by omega) (by omega)
  · obtain ⟨-, -, j, sp, hsp, -, hin⟩ :=
      exists_tokenAddress (by omega : count - 1 < total (view.map Prod.fst))
    have hle := (haccepted.each j sp hsp).window_le
    omega

/-- **All pieces** append the interval. -/
theorem appended_pieces (hs : s.Inv) {pieces : List ℕ} (h : Appended s t start n window)
    (hcalls : appendPieces s t start n pieces window = .ok window') :
    Appended s t start (n + pieces.sum) window' := by
  induction pieces generalizing n window with
  | nil =>
      obtain rfl := Except.ok.inj hcalls
      exact h
  | cons count rest ih =>
      obtain ⟨u, hu, hcalls⟩ := Except.bind_eq_ok.mp hcalls
      rw [List.sum_cons, ← Nat.add_assoc]
      exact ih (h.step hs hu) hcalls

/-- The pages of an interval that is in the window are accepted at once. -/
theorem Appended.accepted (hs : s.Inv) (hdvd : t.pageSize ∣ s.config.blockTokens) (h : Appended s t start n window)
    (hn : n ≠ 0) {view : List Leased} (hview : s.repositoryStorage start n = .ok view) :
    Accepted (view.map Prod.fst) t.pageSize 0 := by
  obtain ⟨hcut, hin, hmax, hstored⟩ := repositoryStorage_cut hs hview
  have hpartition := hcut.partition hs.block_pos
  have hsize := h.size_pos hn
  have hhead : ((view.map Prod.fst).head?.map Span.historyBegin).getD 0 = start := by
    cases hmap : view.map Prod.fst with
    | nil =>
        rw [hmap] at hcut
        have heq : start = start + n := hcut
        omega
    | cons sp rest =>
        rw [hmap] at hcut
        exact hcut.1
  -- each token of a span is a token of the window
  have htoken : ∀ i sp, (view.map Prod.fst)[i]? = some sp → ∀ o < sp.tokenCount,
      (sp.storageBegin + o) % t.pageSize = (tokensBefore (view.map Prod.fst) i + o) % t.pageSize ∧
        sp.storageBegin + o < int32Max := by
    intro i sp hsp o ho
    have hmem := List.mem_of_getElem? hsp
    have hbegin := begin_of_partition hpartition hsp
    obtain ⟨e, he, rfl⟩ := List.mem_map.mp hmem
    have hplaced := hs.placedBy hcut hstored (hin e he).1 hmem o ho
    have hwithin := (hpartition.within hmem).2.2
    obtain ⟨address, ⟨handle, hplace⟩, -, hoffset, hlt⟩ :=
      h.token (tokensBefore (view.map Prod.fst) i + o) (by omega)
    rw [hbegin, Nat.add_assoc, hplace] at hplaced
    obtain rfl : address = e.1.storageBegin + o := congrArg Prod.snd (Option.some.inj hplaced)
    exact ⟨hoffset, hlt⟩
  refine ⟨hsize, fun i sp hsp => ?_, fun i sp hsp hi => ?_⟩
  · have hmem := List.mem_of_getElem? hsp
    have hbegin := begin_of_partition hpartition hsp
    obtain ⟨-, hpos, hwithin⟩ := hpartition.within hmem
    obtain ⟨haligned, -⟩ := htoken i sp hsp 0 hpos
    obtain ⟨-, hlast⟩ := htoken i sp hsp (sp.tokenCount - 1) (by omega)
    have hwindow := h.window_le
    rw [hhead]
    exact ⟨hpos, hbegin, by omega, by omega, by omega, by simpa using haligned⟩
  · -- the span begins a block, and blocks are pages
    have hmem := List.mem_of_getElem? hsp
    obtain ⟨-, hpos, -⟩ := hpartition.within hmem
    obtain ⟨haligned, -⟩ := htoken i sp hsp 0 hpos
    have hzero : sp.historyBegin % s.config.blockTokens = 0 := by
      cases hmap : view.map Prod.fst with
      | nil =>
          rw [hmap] at hsp
          cases hsp
      | cons q rest =>
          rw [hmap] at hsp hcut
          cases i with
          | zero => exact absurd rfl hi
          | succ i => exact (hcut.mod_eq_zero hs.block_pos (List.mem_of_getElem? hsp)).1
    obtain ⟨e, he, rfl⟩ := List.mem_map.mp hmem
    have hstorage : e.1.storageBegin % t.pageSize = 0 := by
      rw [(hin e he).1.storage, hzero, Nat.add_zero]
      exact Nat.mod_eq_zero_of_dvd (hdvd.mul_left _)
    rw [Nat.zero_add]
    rw [Nat.add_zero, Nat.add_zero] at haligned
    rw [← haligned, hstorage]

/-- **An interval that is in the window** is appended at once to an empty one. -/
theorem Appended.at_once (hs : s.Inv) (hdvd : t.pageSize ∣ s.config.blockTokens) (h : Appended s t start n window)
    (hn : n ≠ 0) : appendRepositoryWindow s t [] start n 0 = .ok window := by
  have hsize := h.size_pos hn
  obtain ⟨view, hview⟩ := repositoryStorage_ok hs (Nat.pos_of_ne_zero hn) (h.history_le hn) fun p hp hlt => by
    have hstored := h.stored (p - start) (by omega)
    rwa [Nat.add_sub_cancel' hp] at hstored
  have haccepted := h.accepted hs hdvd hn hview
  obtain ⟨hcut, hin, -, hstored⟩ := repositoryStorage_cut hs hview
  have hpartition := hcut.partition hs.block_pos
  have hplaced : ∀ sp ∈ view.map Prod.fst, sp.PlacedBy s.placement := by
    intro sp hsp
    obtain ⟨e, he, rfl⟩ := List.mem_map.mp hsp
    exact hs.placedBy hcut hstored (hin e he).1 hsp
  have htotal : total (view.map Prod.fst) = n := by
    have := total_of_partition hpartition
    omega
  obtain ⟨pss, hpss⟩ := (kvmemStoragePageSpans_isOk_iff _ _ _).mpr haccepted
  have haligned := aligned_of_accepted haccepted
  have hne : view.map Prod.fst ≠ [] := by
    intro hnil
    rw [hnil] at htotal
    exact hn htotal.symm
  have hsnd := map_snd_pagesOf hsize haligned hne
  rw [htotal, Nat.zero_div, Nat.zero_add] at hsnd
  refine Except.bind_eq_ok.mpr ⟨view, Except.mapError_eq_ok.mpr hview,
    Except.bind_eq_ok.mpr ⟨pss, Except.mapError_eq_ok.mpr hpss, ?_⟩⟩
  rw [expand_kvmemStoragePageSpans hpss]
  refine (appendPages_iff hsnd (Nat.zero_le _)).mpr ⟨fun page hpage => ?_, List.nil_prefix, ?_⟩
  · -- each page is that of a token, which is in the window
    obtain ⟨i, address, haddress, rfl, hi⟩ := mem_pagesOf hsize haligned hpage
    obtain ⟨handle, hplace⟩ := placed_of_partition hpartition hplaced haddress
    obtain ⟨address', ⟨handle', hplace'⟩, hshows, -⟩ := h.token i (by omega)
    rw [hplace] at hplace'
    obtain rfl : address = address' := congrArg Prod.snd (Option.some.inj hplace')
    rwa [Nat.zero_add]
  · rw [h.length_eq, ceil_pred hsize (Nat.pos_of_ne_zero hn)]
    rw [Nat.zero_add, Nat.sub_zero, List.length_nil, Nat.zero_max]

end Pieces

section

variable {s : State} {t : KvPageTable}

/-- **Incremental appends to the window.** Where the page size divides the block size, an interval that is
appended in pieces to an empty window is appended at once, with the same pages; the page of each of its
tokens is that of the token's physical place.  The storage of an interval is found where every position has
some, and is then cut into spans, one for a slot, each at its committed or prepared tokens and with
a lease of its slot. -/
theorem windowAppend (hs : machine.Reachable s) (hdvd : t.pageSize ∣ s.config.blockTokens) :
    (∀ start piece pieces window, appendPieces s t start 0 (piece :: pieces) [] = .ok window →
      appendRepositoryWindow s t [] start (piece + pieces.sum) 0 = .ok window ∧
      ∀ i < piece + pieces.sum, ∃ h address physical, s.placement (start + i) = some (h, address) ∧
        t.pages[address / t.pageSize]? = some physical ∧ window[i / t.pageSize]? = some physical ∧
        address % t.pageSize = i % t.pageSize) ∧
    ∀ start count,
      (0 < count → ((∃ out, s.repositoryStorage start count = .ok out) ↔
        start + count ≤ uint64Max ∧ ∀ p, start ≤ p → p < start + count → s.Stored p)) ∧
      ∀ out, s.repositoryStorage start count = .ok out →
        Partition start (start + count) (out.map Prod.fst) ∧ (out.map fun e => e.1.handle.slot).Nodup ∧
        ∀ e ∈ out, e.1.PlacedBy s.placement ∧ e.2 = some e.1.handle := by
  have hinv := machine_invariant.reachable hs
  have hsize : 0 < t.pageSize := Nat.pos_of_dvd_of_pos hdvd hinv.block_pos
  constructor
  · intro start piece pieces window h
    have happended := appended_pieces hinv (appended_nil hsize) h
    rw [Nat.zero_add, List.sum_cons] at happended
    refine ⟨?_, fun i hi => ?_⟩
    · by_cases hzero : piece + pieces.sum = 0
      · -- the first call appends as little as all of them
        obtain ⟨u, hu, -⟩ := Except.bind_eq_ok.mp h
        have hfirst := (appended_nil hsize).step hinv hu
        have hnil : Appended s t start 0 [] := appended_nil hsize
        have hempty : ∀ {w : List ℤ}, Appended s t start 0 w → w = [] := fun hw =>
          List.eq_nil_of_length_eq_zero (hw.length_eq.trans hnil.length_eq.symm)
        obtain ⟨rfl, hrest⟩ : piece = 0 ∧ pieces.sum = 0 := by omega
        rw [hzero] at happended ⊢
        obtain rfl := hempty happended
        obtain rfl := hempty hfirst
        exact hu
      · exact happended.at_once hinv hdvd hzero
    · obtain ⟨address, ⟨h, hplace⟩, ⟨physical, hphysical, -, hwindow⟩, hoffset, -⟩ := happended.token i hi
      exact ⟨h, address, physical, hplace, hphysical, hwindow, hoffset⟩
  · intro start count
    refine ⟨fun hpos => ⟨?_, fun h => repositoryStorage_ok hinv hpos h.1 h.2⟩, fun out hout => ?_⟩
    · rintro ⟨out, hout⟩
      exact (repositoryStorage_cut hinv hout).2.2
    · obtain ⟨hcut, hin, -, hstored⟩ := repositoryStorage_cut hinv hout
      have hblocks : ∀ sp ∈ out.map Prod.fst, s.InBlock sp := by
        intro sp hsp
        obtain ⟨e, he, rfl⟩ := List.mem_map.mp hsp
        exact (hin e he).1
      refine ⟨hcut.partition hinv.block_pos, ?_, fun e he => ?_⟩
      · have hslots := hinv.slots_nodup hcut hblocks
        rwa [List.map_map] at hslots
      · exact ⟨hinv.placedBy hcut hstored (hin e he).1 (List.mem_map_of_mem he), (hin e he).2⟩

end

/-- Six tokens are committed in blocks of four and seven are prepared behind them; twelve of the
thirteen go into a window of pages of two tokens. -/
theorem windowAppend_straddling : ∃ s t, machine.Reachable s ∧
    appendPieces s t 0 0 [3, 4, 0, 5] [] = .ok [10, 11, 12, 13, 14, 15] ∧
    appendRepositoryWindow s t [] 0 12 0 = .ok [10, 11, 12, 13, 14, 15] := by
  have hrun : (machine.run (State.initial ⟨4, true⟩ ⟨4, 4⟩)
      [.prepareAppend 6 0, .commitAppend 6, .prepareAppend 7 6]).any (fun s => decide
        (s.config.blockTokens = 4 ∧
          (appendPieces s ⟨2, 8, "identity", [10, 11, 12, 13, 14, 15, 16, 17], [], none, 0, true⟩ 0 0
            [3, 4, 0, 5] []).toOption = some [10, 11, 12, 13, 14, 15])) = true := by
    decide +kernel
  obtain ⟨s, hs, hstate⟩ := machine.exists_reachable ⟨_, _, validConfig_small, rfl⟩ hrun
  obtain ⟨hblock, hpieces⟩ := of_decide_eq_true hstate
  have hpieces := toOption_eq_some hpieces
  refine ⟨s, _, hs, hpieces, ?_⟩
  exact ((windowAppend hs (by rw [hblock]; exact ⟨2, rfl⟩)).1 0 3 [4, 0, 5] _ hpieces).1

end Qw3.PageTable
