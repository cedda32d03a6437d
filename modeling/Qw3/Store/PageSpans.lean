import Qw3.Store.Model

/-!
# Page aliases of a storage interval

`kvmem_storage_page_spans` maps the pages of the window that a forward uses to
the physical pages of the spans it reads or writes.

* `kvmemStoragePageSpans` — the loop over the spans, which merges neighbours.
* `tokenAddress` — the physical token of an offset of the interval.
* `Accepted` — the spans that it does not throw at.
* `storagePageSpans` — every token is on the page that its window page is mapped
  to, at the same place in it, and a window page is mapped to one page.
-/

namespace Qw3.Store

open Qw3.Repository (uint64Max)

/-- `KvMemStoragePageSpan`. -/
structure PageSpan where
  storagePage : ℕ
  windowPage : ℕ
  pageCount : ℕ
  deriving DecidableEq, Repr

/-- What `kvmem_storage_page_spans` throws. -/
inductive PageError
  | pageSizeZero | mismatch
  deriving DecidableEq, Repr

/-- The pages of a span that begins at `window`. -/
def Span.pages (sp : Span) (size window : ℕ) : PageSpan :=
  let first := sp.storageBegin / size
  ⟨first, window / size, (sp.storageBegin + sp.tokenCount + size - 1) / size - first⟩

/-- One span more; the list has its back first.  Pages that follow the back in
the window and in the storage are added to it. -/
def addPages (out : List PageSpan) (ps : PageSpan) : List PageSpan :=
  match out with
  | back :: rest =>
      if back.storagePage + back.pageCount = ps.storagePage ∧
          back.windowPage + back.pageCount = ps.windowPage then
        { back with pageCount := back.pageCount + ps.pageCount } :: rest
      else ps :: back :: rest
  | [] => [ps]

/-- The test of the loop fails. -/
def mismatched (size history window : ℕ) (out : List PageSpan) (sp : Span) : Bool :=
  sp.tokenCount = 0 ∨ sp.historyBegin ≠ history ∨ uint64Max - sp.tokenCount < history ∨
    int32Max < sp.storageBegin + sp.tokenCount ∨ int32Max < window + sp.tokenCount ∨
    sp.storageBegin % size ≠ window % size ∨ (out ≠ [] ∧ window % size ≠ 0)

/-- The loop over the spans. -/
def pageSpansLoop (size : ℕ) : List Span → ℕ → ℕ → List PageSpan → Except PageError (List PageSpan)
  | [], _, _, out => .ok out
  | sp :: rest, history, window, out =>
      if mismatched size history window out sp then .error .mismatch
      else
        pageSpansLoop size rest (history + sp.tokenCount) (window + sp.tokenCount)
          (addPages out (sp.pages size window))

/-- `kvmem_storage_page_spans(spans, page_size, window_begin)`. -/
def kvmemStoragePageSpans (spans : List Span) (size windowBegin : ℕ) :
    Except PageError (List PageSpan) :=
  if size = 0 then .error .pageSizeZero
  else
    let history := (spans.head?.map Span.historyBegin).getD 0
    (pageSpansLoop size spans history windowBegin []).map List.reverse

/-! ## What the page spans say -/

/-- The physical token of an offset of the interval. -/
def tokenAddress : List Span → ℕ → Option ℕ
  | [], _ => none
  | sp :: rest, i =>
      if i < sp.tokenCount then some (sp.storageBegin + i)
      else tokenAddress rest (i - sp.tokenCount)

/-- A page of the window is mapped to a page of the storage. -/
def PageSpan.Maps (ps : PageSpan) (w p : ℕ) : Prop :=
  ps.windowPage ≤ w ∧ w < ps.windowPage + ps.pageCount ∧ p = ps.storagePage + (w - ps.windowPage)

def Mapped (out : List PageSpan) (w p : ℕ) : Prop := ∃ ps ∈ out, ps.Maps w p

/-- The tokens before a span. -/
def tokensBefore (spans : List Span) (i : ℕ) : ℕ := ((spans.take i).map Span.tokenCount).sum

/-- A span that the function accepts, with the tokens before it.  The last two
say that its place in a page is that of the window, and that only the first span
begins inside a page. -/
structure AcceptedSpan (size historyBegin windowBegin before : ℕ) (sp : Span) : Prop where
  nonempty : 0 < sp.tokenCount
  contiguous : sp.historyBegin = historyBegin + before
  history_le : sp.historyBegin + sp.tokenCount ≤ uint64Max
  storage_le : sp.storageBegin + sp.tokenCount ≤ int32Max
  window_le : windowBegin + before + sp.tokenCount ≤ int32Max
  aligned : sp.storageBegin % size = (windowBegin + before) % size

/-- The spans that the function accepts. -/
structure Accepted (spans : List Span) (size windowBegin : ℕ) : Prop where
  size_pos : 0 < size
  each : ∀ i sp, spans[i]? = some sp →
    AcceptedSpan size ((spans.head?.map Span.historyBegin).getD 0) windowBegin
      (tokensBefore spans i) sp
  boundary : ∀ i sp, spans[i]? = some sp → i ≠ 0 → (windowBegin + tokensBefore spans i) % size = 0

section Loop

variable {size history window : ℕ} {out : List PageSpan} {sp : Span}

theorem mapped_addPages (ps : PageSpan) (w p : ℕ) :
    Mapped (addPages out ps) w p ↔ Mapped out w p ∨ ps.Maps w p := by
  cases out with
  | nil => simp [Mapped, addPages]
  | cons back rest =>
    rw [addPages]
    split
    next hnext =>
      obtain ⟨hstorage, hwindow⟩ := hnext
      have hback : ({ back with pageCount := back.pageCount + ps.pageCount } : PageSpan).Maps w p ↔
          back.Maps w p ∨ ps.Maps w p := by
        simp only [PageSpan.Maps]
        omega
      simp only [Mapped, List.mem_cons, exists_eq_or_imp, hback]
      exact or_right_comm
    next =>
      simp only [Mapped, List.mem_cons, exists_eq_or_imp]
      exact or_comm

theorem addPages_ne_nil (out : List PageSpan) (ps : PageSpan) : addPages out ps ≠ [] := by
  cases out with
  | nil => simp [addPages]
  | cons back rest =>
    rw [addPages]
    split <;> simp

/-- The pages of a span end where its last token's page does, in the storage and
in the window. -/
theorem Span.pages_end (hsize : 0 < size) (haligned : sp.storageBegin % size = window % size)
    (hcount : 0 < sp.tokenCount) :
    (sp.pages size window).pageCount =
      (window + sp.tokenCount - 1) / size + 1 - window / size := by
  have hceil : ∀ n, 0 < n → (n + size - 1) / size = (n - 1) / size + 1 := by
    intro n hn
    rw [show n + size - 1 = n - 1 + size by omega, Nat.add_div_right _ hsize]
  have hstorage := Nat.div_add_mod sp.storageBegin size
  have hwindow := Nat.div_add_mod window size
  have hshift : ∀ q, (size * q + window % size + sp.tokenCount - 1) / size =
      q + (window % size + sp.tokenCount - 1) / size := by
    intro q
    rw [show size * q + window % size + sp.tokenCount - 1 =
      window % size + sp.tokenCount - 1 + size * q by omega, Nat.add_mul_div_left _ _ hsize,
      Nat.add_comm]
  rw [Span.pages]
  dsimp only
  rw [hceil _ (by omega)]
  conv_lhs => rw [← hstorage, haligned]
  conv_rhs => rw [← hwindow]
  rw [hshift, hshift, Nat.mul_add_div hsize, Nat.mul_add_div hsize,
    Nat.div_eq_of_lt (Nat.mod_lt _ hsize)]
  omega

/-- A token of the span is on the page that its window page is mapped to. -/
theorem Span.pages_maps (hsize : 0 < size) (haligned : sp.storageBegin % size = window % size)
    {j : ℕ} (hj : j < sp.tokenCount) :
    (sp.pages size window).Maps ((window + j) / size) ((sp.storageBegin + j) / size) ∧
      (window + j) % size = (sp.storageBegin + j) % size := by
  have hlow : window / size ≤ (window + j) / size := Nat.div_le_div_right (Nat.le_add_right _ _)
  have hhigh : (window + j) / size ≤ (window + sp.tokenCount - 1) / size :=
    Nat.div_le_div_right (by omega)
  have hoffset : ∀ x, (x + j) / size = x / size + (x % size + j) / size := by
    intro x
    conv_lhs => rw [← Nat.div_add_mod x size, Nat.add_assoc, Nat.mul_add_div hsize]
  refine ⟨⟨hlow, ?_, ?_⟩, ?_⟩
  · rw [Span.pages_end hsize haligned (by omega)]
    show (window + j) / size < window / size + _
    omega
  · show _ = sp.storageBegin / size + ((window + j) / size - window / size)
    have hstorage := hoffset sp.storageBegin
    have hwindow := hoffset window
    rw [haligned] at hstorage
    omega
  · rw [Nat.add_mod, ← haligned, ← Nat.add_mod]

/-- What holds between two spans: the pages mapped so far are those before the
next window position, each to one page. -/
structure Mapping (size window : ℕ) (out : List PageSpan) : Prop where
  below : ∀ w p, Mapped out w p → w * size < window
  unique : ∀ w p q, Mapped out w p → Mapped out w q → p = q

/-- One span keeps it. -/
theorem Mapping.step (hsize : 0 < size) (h : Mapping size window out)
    (hok : mismatched size history window out sp = false) :
    Mapping size (window + sp.tokenCount) (addPages out (sp.pages size window)) := by
  simp only [mismatched, decide_eq_false_iff_not, not_or, ne_eq, not_and, not_not] at hok
  obtain ⟨hcount, -, -, -, -, haligned, hboundary⟩ := hok
  have hend := Span.pages_end hsize haligned (Nat.pos_of_ne_zero hcount)
  -- The pages of this span begin where the earlier ones end.
  have hfresh : ∀ w p, Mapped out w p → w < window / size := by
    intro w p hw
    have hne : out ≠ [] := by
      rintro rfl
      obtain ⟨ps, hps, -⟩ := hw
      cases hps
    have hdvd := Nat.div_mul_cancel (Nat.dvd_of_mod_eq_zero (hboundary hne))
    have hlt := h.below w p hw
    rw [← hdvd] at hlt
    exact Nat.lt_of_mul_lt_mul_right hlt
  refine ⟨?_, ?_⟩
  · intro w p hw
    rcases (mapped_addPages _ w p).mp hw with hw | ⟨-, hlt, -⟩
    · exact (h.below w p hw).trans_le (Nat.le_add_right _ _)
    · rw [hend] at hlt
      have hle : w ≤ (window + sp.tokenCount - 1) / size := by
        change w < window / size + _ at hlt
        have : window / size ≤ (window + sp.tokenCount - 1) / size :=
          Nat.div_le_div_right (by omega)
        omega
      have := (Nat.le_div_iff_mul_le hsize).mp hle
      omega
  · intro w p q hp hq
    rcases (mapped_addPages _ w p).mp hp with hp | ⟨hle, -, rfl⟩
    · rcases (mapped_addPages _ w q).mp hq with hq | ⟨hle, -, rfl⟩
      · exact h.unique w p q hp hq
      · exact absurd (hfresh w p hp) (not_lt.mpr hle)
    · rcases (mapped_addPages _ w q).mp hq with hq | ⟨-, -, rfl⟩
      · exact absurd (hfresh w q hq) (not_lt.mpr hle)
      · rfl

/-- The loop: what is mapped stays mapped, every further token is mapped, and no
window page twice. -/
theorem pageSpansLoop_spec (hsize : 0 < size) {spans : List Span} {out' : List PageSpan}
    (h : Mapping size window out) (hloop : pageSpansLoop size spans history window out = .ok out') :
    (∀ w p, Mapped out w p → Mapped out' w p) ∧
      (∀ i a, tokenAddress spans i = some a →
        Mapped out' ((window + i) / size) (a / size) ∧ (window + i) % size = a % size) ∧
      ∀ w p q, Mapped out' w p → Mapped out' w q → p = q := by
  induction spans generalizing history window out with
  | nil =>
    cases hloop
    refine ⟨fun w p hw => hw, ?_, h.unique⟩
    intro i a ha
    cases ha
  | cons sp rest ih =>
    rw [pageSpansLoop] at hloop
    split at hloop
    next => cases hloop
    next hok =>
      have hok := Bool.eq_false_of_not_eq_true hok
      obtain ⟨hkept, htokens, hunique⟩ := ih (h.step hsize hok) hloop
      refine ⟨?_, ?_, hunique⟩
      · intro w p hw
        exact hkept w p ((mapped_addPages _ w p).mpr (.inl hw))
      · intro i a ha
        rw [tokenAddress] at ha
        split at ha
        next hi =>
          cases ha
          simp only [mismatched, decide_eq_false_iff_not, not_or, ne_eq, not_not] at hok
          obtain ⟨hmaps, hmod⟩ := Span.pages_maps hsize hok.2.2.2.2.2.1 hi
          exact ⟨hkept _ _ ((mapped_addPages _ _ _).mpr (.inr hmaps)), hmod⟩
        next hi =>
          have hrest := htokens (i - sp.tokenCount) a ha
          rwa [show window + sp.tokenCount + (i - sp.tokenCount) = window + i by omega] at hrest

/-- The loop ends without a throw where every span passes the test. -/
theorem pageSpansLoop_isOk_iff {spans : List Span} :
    (∃ out', pageSpansLoop size spans history window out = .ok out') ↔
      (∀ i sp, spans[i]? = some sp →
        AcceptedSpan size history window (tokensBefore spans i) sp) ∧
      ∀ i sp, spans[i]? = some sp → (out ≠ [] ∨ i ≠ 0) →
        (window + tokensBefore spans i) % size = 0 := by
  induction spans generalizing history window out with
  | nil => simp [pageSpansLoop]
  | cons sp rest ih =>
    have hbefore : ∀ i, tokensBefore (sp :: rest) (i + 1) = sp.tokenCount + tokensBefore rest i := by
      intro i
      simp [tokensBefore]
    have hzero : tokensBefore (sp :: rest) 0 = 0 := rfl
    have hmismatched : mismatched size history window out sp = false ↔
        AcceptedSpan size history window 0 sp ∧ (out ≠ [] → window % size = 0) := by
      simp only [mismatched, decide_eq_false_iff_not, not_or, ne_eq, not_and, not_not]
      constructor
      · rintro ⟨h1, h2, h3, h4, h5, h6, h7⟩
        exact ⟨⟨by omega, by omega, by unfold int32Max uint64Max at *; omega, by omega, by omega,
          by simpa using h6⟩, h7⟩
      · rintro ⟨⟨h1, h2, h3, h4, h5, h6⟩, h7⟩
        exact ⟨by omega, by omega, by omega, by omega, by omega, by simpa using h6, h7⟩
    rw [pageSpansLoop]
    split
    next hbad =>
      refine iff_of_false ?_ ?_
      · rintro ⟨out', h⟩
        cases h
      · rintro ⟨hspans, hboundary⟩
        have hok : mismatched size history window out sp = false :=
          hmismatched.mpr ⟨hspans 0 sp rfl, fun hne => hboundary 0 sp rfl (.inl hne)⟩
        rw [hok] at hbad
        cases hbad
    next hok =>
      obtain ⟨hfirst, hbound⟩ := hmismatched.mp (Bool.eq_false_of_not_eq_true hok)
      rw [ih]
      have hshift : ∀ i q, AcceptedSpan size (history + sp.tokenCount) (window + sp.tokenCount)
          (tokensBefore rest i) q ↔
            AcceptedSpan size history window (tokensBefore (sp :: rest) (i + 1)) q := by
        intro i q
        rw [hbefore]
        constructor
        · rintro ⟨h1, h2, h3, h4, h5, h6⟩
          exact ⟨h1, by omega, h3, h4, by omega, by rw [h6]; congr 1; omega⟩
        · rintro ⟨h1, h2, h3, h4, h5, h6⟩
          exact ⟨h1, by omega, h3, h4, by omega, by rw [h6]; congr 1; omega⟩
      constructor
      · rintro ⟨hspans, hboundary⟩
        refine ⟨?_, ?_⟩
        · intro i q hq
          cases i with
          | zero =>
            obtain rfl : sp = q := by simpa using hq
            exact hfirst
          | succ i => exact (hshift i q).mp (hspans i q (by simpa using hq))
        · intro i q hq hne
          cases i with
          | zero =>
            rw [hzero, Nat.add_zero]
            exact hbound (hne.resolve_right (by simp))
          | succ i =>
            rw [hbefore, ← Nat.add_assoc]
            exact hboundary i q (by simpa using hq) (.inl (addPages_ne_nil _ _))
      · rintro ⟨hspans, hboundary⟩
        refine ⟨?_, ?_⟩
        · intro i q hq
          exact (hshift i q).mpr (hspans (i + 1) q (by simpa using hq))
        · intro i q hq _
          rw [Nat.add_assoc, ← hbefore]
          exact hboundary (i + 1) q (by simpa using hq) (.inr (by simp))

end Loop

/-- It throws at the spans that it does not accept, and at no others. -/
theorem kvmemStoragePageSpans_isOk_iff (spans : List Span) (size windowBegin : ℕ) :
    (∃ out, kvmemStoragePageSpans spans size windowBegin = .ok out) ↔
      Accepted spans size windowBegin := by
  rw [kvmemStoragePageSpans]
  split
  next hzero =>
    refine iff_of_false ?_ ?_
    · rintro ⟨out, h⟩
      cases h
    · intro h
      exact absurd hzero h.size_pos.ne'
  next hsize =>
    have hmap : (∃ out, (pageSpansLoop size spans ((spans.head?.map Span.historyBegin).getD 0)
        windowBegin []).map List.reverse = .ok out) ↔
        ∃ out, pageSpansLoop size spans ((spans.head?.map Span.historyBegin).getD 0)
          windowBegin [] = .ok out := by
      cases pageSpansLoop size spans ((spans.head?.map Span.historyBegin).getD 0) windowBegin [] with
      | error e => simp [Except.map]
      | ok out => simp [Except.map]
    rw [hmap, pageSpansLoop_isOk_iff]
    constructor
    · rintro ⟨heach, hboundary⟩
      exact ⟨Nat.pos_of_ne_zero hsize, heach, fun i sp hsp hi => hboundary i sp hsp (.inr hi)⟩
    · intro h
      exact ⟨h.each, fun i sp hsp hi => h.boundary i sp hsp (hi.resolve_left (by simp))⟩

/-- **The page aliases of an interval.**  The function throws unless the spans are
not empty, follow each other in the history, stay within the ranges, have in a
storage page the place that they have in a window page, and begin at page
boundaries but for the first.  Otherwise each token of the interval is at its
place on the page that its window page is mapped to, and no window page is mapped
to two pages. -/
theorem storagePageSpans (spans : List Span) (size windowBegin : ℕ) :
    ((∃ out, kvmemStoragePageSpans spans size windowBegin = .ok out) ↔
      Accepted spans size windowBegin) ∧
    ∀ out, kvmemStoragePageSpans spans size windowBegin = .ok out →
      (∀ i a, tokenAddress spans i = some a →
        Mapped out ((windowBegin + i) / size) (a / size) ∧
          (windowBegin + i) % size = a % size) ∧
      ∀ w p q, Mapped out w p → Mapped out w q → p = q := by
  refine ⟨kvmemStoragePageSpans_isOk_iff spans size windowBegin, ?_⟩
  intro out h
  rw [kvmemStoragePageSpans] at h
  split at h
  next => cases h
  next hsize =>
    dsimp only at h
    cases hloop : pageSpansLoop size spans ((spans.head?.map Span.historyBegin).getD 0)
        windowBegin [] with
    | error e =>
      rw [hloop] at h
      cases h
    | ok back =>
      rw [hloop] at h
      cases h
      have hnone : ∀ w p, ¬ Mapped [] w p := by
        rintro w p ⟨ps, hps, -⟩
        cases hps
      have hempty : Mapping size windowBegin [] :=
        ⟨fun w p hw => absurd hw (hnone w p), fun w p q hw => absurd hw (hnone w p)⟩
      have hreverse : ∀ w p, Mapped back.reverse w p ↔ Mapped back w p := by
        intro w p
        simp only [Mapped, List.mem_reverse]
      obtain ⟨-, htokens, hunique⟩ := pageSpansLoop_spec (Nat.pos_of_ne_zero hsize) hempty hloop
      simp only [hreverse]
      exact ⟨htokens, hunique⟩

/-- One span that begins inside a page while the window does not: contiguous, in
range and without an inner boundary, and yet the function throws. -/
theorem storagePageSpans_misaligned :
    (∀ i sp, [(⟨0, 1, 4, noHandle⟩ : Span)][i]? = some sp →
      sp.historyBegin = tokensBefore [⟨0, 1, 4, noHandle⟩] i ∧
        sp.historyBegin + sp.tokenCount ≤ uint64Max ∧
        sp.storageBegin + sp.tokenCount ≤ int32Max ∧
        tokensBefore [⟨0, 1, 4, noHandle⟩] i + sp.tokenCount ≤ int32Max ∧
        (i ≠ 0 → tokensBefore [⟨0, 1, 4, noHandle⟩] i % 16 = 0)) ∧
      kvmemStoragePageSpans [⟨0, 1, 4, noHandle⟩] 16 0 = .error .mismatch := by
  refine ⟨?_, by decide⟩
  intro i sp hsp
  cases i with
  | zero =>
    obtain rfl : (⟨0, 1, 4, noHandle⟩ : Span) = sp := by simpa using hsp
    decide
  | succ i => simp at hsp

/-- Two blocks whose slots follow each other are one page span. -/
example : kvmemStoragePageSpans [⟨0, 4, 4, noHandle⟩, ⟨4, 8, 3, noHandle⟩] 4 12 =
    .ok [⟨1, 3, 2⟩] := by
  decide

end Qw3.Store
