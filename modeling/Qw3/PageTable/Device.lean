import Qw3.Lib.Machine
import Qw3.PageTable.Demand

/-!
# The device's copy of a page table

Which entries the tensor of a table holds.

`device_synced` promises that the tensor has every entry below it.  An upload of a single
entry raises it past the entries before, and a later call that asks for these uploads
nothing.

* `Clean` — an entry is the same on the device; `Mirror`, every entry below the mark is.
* `Safe` — a call neither leaves a gap below the mark nor throws after it has filled a hole there.
* `deviceTable_mirror` — in a run of safe calls the mark can be trusted, and a call that returns
  has the logical pages that it was asked for below the mark.
-/

namespace Qw3.PageTable

open KvPageTable Program

variable {σ : Type}

namespace KvPageTable

/-- The entry is the same on the device. -/
def Clean (t : KvPageTable) (i : ℕ) : Prop :=
  ∃ device, t.devicePages = some device ∧ t.pages[i]? = some (device i)

instance (t : KvPageTable) (i : ℕ) : Decidable (t.Clean i) :=
  match h : t.devicePages with
  | none => isFalse fun ⟨_, hd, _⟩ => by cases h.symm.trans hd
  | some device => decidable_of_iff (t.pages[i]? = some (device i))
      ⟨fun hp => ⟨device, h, hp⟩, fun ⟨_, hd, hp⟩ => by rwa [Option.some.inj (h.symm.trans hd)]⟩

/-- `pages[i]` is on the device for every `i < device_synced`. -/
def Mirror (t : KvPageTable) : Prop := ∀ i < t.deviceSynced, t.Clean i

instance (t : KvPageTable) : Decidable t.Mirror := inferInstanceAs (Decidable (∀ i < _, _))

/-- What the operations keep. -/
structure Published (t : KvPageTable) : Prop where
  mode : t.ValidMode
  mirror : t.Mirror

/-- Only entries among `S` differ. -/
structure Within (t u : KvPageTable) (S : ℕ → Prop) : Prop where
  frame : u = { t with pages := u.pages, owned := u.owned }
  length_eq : u.pages.length = t.pages.length
  same : ∀ {i : ℕ}, ¬ S i → u.pages[i]? = t.pages[i]?

end KvPageTable

section Entries

variable {t u v : KvPageTable} {i start count finish n : ℕ} {p : ℤ} {fresh : ℕ → ℤ} {S S' : ℕ → Prop}

theorem KvPageTable.Clean.lt (h : t.Clean i) : i < t.pages.length := by
  obtain ⟨device, -, hp⟩ := h
  exact (List.getElem?_eq_some_iff.mp hp).1

theorem KvPageTable.Clean.congr (h : t.Clean i) (hdevice : u.devicePages = t.devicePages) (hpages : u.pages[i]? = t.pages[i]?) :
    u.Clean i := by
  obtain ⟨device, hd, hp⟩ := h
  exact ⟨device, hdevice.trans hd, hpages.trans hp⟩

theorem KvPageTable.Clean.withTensor (h : t.Clean i) : (t.withTensor fresh).Clean i := by
  obtain ⟨device, hd, hp⟩ := h
  refine ⟨device, ?_, hp⟩
  change some (t.devicePages.getD fresh) = _
  rw [hd]
  rfl

/-- An upload changes no entry that is the same. -/
theorem KvPageTable.Clean.upload (h : t.Clean i) : (t.upload start count).Clean i := by
  obtain ⟨device, hd, hp⟩ := h
  have hup : (t.upload start count).devicePages =
      some fun i => if start ≤ i ∧ i < start + count then t.pages.getD i 0 else device i := by
    change t.devicePages.map _ = _
    rw [hd]
    rfl
  refine ⟨_, hup, ?_⟩
  change t.pages[i]? = _
  split_ifs
  · rw [hp, List.getD_eq_getElem?_getD, hp]
    rfl
  · exact hp

/-- What is uploaded is the same. -/
theorem clean_upload (hdevice : t.devicePages.isSome) (hi : i < t.pages.length)
    (hin : start ≤ i ∧ i < start + count) : (t.upload start count).Clean i := by
  obtain ⟨device, hd⟩ := Option.isSome_iff_exists.mp hdevice
  have hup : (t.upload start count).devicePages =
      some fun i => if start ≤ i ∧ i < start + count then t.pages.getD i 0 else device i := by
    change t.devicePages.map _ = _
    rw [hd]
    rfl
  refine ⟨_, hup, ?_⟩
  change t.pages[i]? = _
  rw [if_pos hin, List.getD_eq_getElem?_getD, List.getElem?_eq_getElem hi]
  rfl

/-- What is published is the same, and what was. -/
theorem clean_publish (hfinish : finish ≤ t.pages.length) (h : start ≤ i ∧ i < finish ∨ t.Clean i) :
    (t.publish fresh start finish).Clean i := by
  have hup : ((t.withTensor fresh).upload start (finish - start)).Clean i := by
    rcases h with hin | h
    · exact clean_upload rfl (hin.2.trans_le hfinish) ⟨hin.1, by omega⟩
    · exact h.withTensor.upload
  exact hup.congr rfl rfl

namespace KvPageTable.Published

theorem congr (ht : t.Published) (hmode : u.allocMode = t.allocMode) (hmark : u.deviceSynced = t.deviceSynced)
    (h : ∀ i, t.Clean i → u.Clean i) : u.Published := by
  refine ⟨?_, fun i hi => h i (ht.mirror i (hmark ▸ hi))⟩
  unfold ValidMode
  rw [hmode]
  exact ht.mode

theorem push (ht : t.Published) : (t.push p).Published := by
  refine ht.congr rfl rfl fun i hclean => hclean.congr rfl ?_
  exact List.getElem?_append_left hclean.lt

theorem shrink (ht : t.Published) (n : ℕ) : (t.shrink n).Published := by
  refine ⟨ht.mode, fun i hi => ?_⟩
  have hlt : i < t.deviceSynced ∧ i < n := Nat.lt_min.mp hi
  exact (ht.mirror i hlt.1).congr rfl (List.getElem?_take_of_lt hlt.2)

theorem cleared (ht : t.Published) : (PageTable.cleared t).Published :=
  ⟨ht.mode, fun _ hi => absurd hi (Nat.not_lt_zero _)⟩

/-- What is published is on the device where nothing below it is left out. -/
theorem publish (hmode : t.ValidMode) (hfinish : finish ≤ t.pages.length)
    (h : ∀ i < max t.deviceSynced finish, start ≤ i ∧ i < finish ∨ t.Clean i) :
    (t.publish fresh start finish).Published :=
  ⟨hmode, fun i hi => clean_publish hfinish (h i hi)⟩

/-- `ensure_pages` uploads what is not on the device. -/
theorem syncDense (ht : t.Published) :
    (PageTable.syncDense fresh t).Published ∧ t.pages.length ≤ (PageTable.syncDense fresh t).deviceSynced := by
  unfold PageTable.syncDense
  dsimp only
  have hnew : (if t.devicePages.isSome then t else { t.withTensor fresh with deviceSynced := 0 }).Published := by
    split_ifs
    · exact ht
    · exact ⟨ht.mode, fun _ hi => absurd hi (Nat.not_lt_zero _)⟩
  have hpages : (if t.devicePages.isSome then t else { t.withTensor fresh with deviceSynced := 0 }).pages = t.pages := by
    split_ifs <;> rfl
  generalize (if t.devicePages.isSome then t else { t.withTensor fresh with deviceSynced := 0 }) = u at hnew hpages ⊢
  rw [← hpages]
  by_cases hlt : u.deviceSynced < u.pages.length
  · rw [if_pos hlt]
    refine ⟨publish hnew.mode le_rfl fun i hi => ?_, le_max_right _ _⟩
    by_cases hmark : i < u.deviceSynced
    · exact .inr (hnew.mirror i hmark)
    · exact .inl ⟨not_lt.mp hmark, by omega⟩
  · rw [if_neg hlt]
    exact ⟨hnew, not_lt.mp hlt⟩

/-- A table that has no entries gets those of another. -/
theorem adopt (ht : t.Published) (shared : List ℤ) (owned : List Bool) :
    { (({ t with pages := shared, owned := owned }).withTensor fresh).upload 0 shared.length with
      deviceSynced := shared.length }.Published := by
  refine ⟨ht.mode, fun i hi => ?_⟩
  have hlt : i < shared.length := hi
  have hup : ((({ t with pages := shared, owned := owned }).withTensor fresh).upload 0 shared.length).Clean i :=
    clean_upload rfl hlt ⟨Nat.zero_le _, by omega⟩
  exact hup.congr rfl rfl

/-- Pages that are put above the mark leave the device as it is. -/
theorem put (ht : t.Published) {l : List ℕ} (h : Put t u l) (hl : ∀ i ∈ l, t.deviceSynced ≤ i) : u.Published := by
  have hmark : u.deviceSynced = t.deviceSynced := by rw [h.frame]
  refine ⟨?_, fun i hi => ?_⟩
  · rw [h.frame]
    exact ht.mode
  · rw [hmark] at hi
    have hclean := ht.mirror i hi
    exact hclean.congr (by rw [h.frame]) (h.same hclean.lt fun hmem => not_le.mpr hi (hl i hmem))

end KvPageTable.Published

namespace KvPageTable.Within

theorem refl (t : KvPageTable) : Within t t S := ⟨rfl, rfl, fun _ => rfl⟩

theorem trans (h : Within t u S) (h' : Within u v S) : Within t v S :=
  ⟨by rw [h'.frame, h.frame], h'.length_eq.trans h.length_eq, fun hi => (h'.same hi).trans (h.same hi)⟩

theorem mono (h : Within t u S) (hsub : ∀ i, S i → S' i) : Within t u S' :=
  ⟨h.frame, h.length_eq, fun hi => h.same fun hS => hi (hsub _ hS)⟩

theorem dropPage (x : List ℤ × KvPageTable) (i : ℕ) : Within x.2 (KvPageTable.dropPage x i).2 (· = i) := by
  unfold KvPageTable.dropPage
  split
  next => exact refl _
  next page hp =>
    by_cases hneg : page < 0
    · rw [if_pos hneg]
      exact refl _
    · rw [if_neg hneg]
      refine ⟨rfl, List.length_set, fun hne => ?_⟩
      exact List.getElem?_set_ne (Ne.symm hne)

theorem dropRange (x : List ℤ × KvPageTable) (start finish : ℕ) :
    Within x.2 (KvPageTable.dropRange x start finish).2 fun i => start ≤ i ∧ i < finish := by
  have hfold : ∀ (l : List ℕ) (x : List ℤ × KvPageTable), (∀ i ∈ l, start ≤ i ∧ i < finish) →
      Within x.2 (l.foldl KvPageTable.dropPage x).2 fun i => start ≤ i ∧ i < finish := by
    intro l
    induction l with
    | nil => exact fun x _ => refl _
    | cons j l ih =>
        intro x hl
        rw [List.forall_mem_cons] at hl
        have hdrop : Within x.2 (KvPageTable.dropPage x j).2 fun i => start ≤ i ∧ i < finish :=
          (dropPage x j).mono fun i hi => hi ▸ hl.1
        exact hdrop.trans (ih _ hl.2)
  refine hfold _ x fun i hi => ?_
  rw [List.mem_range'_1] at hi
  omega

/-- What the ranges drop is within their window. -/
theorem dropRanges (t : KvPageTable) (ranges : List (ℕ × ℕ)) :
    Within t (dropRanges t ranges).1.2 fun i => (dropRanges t ranges).2.1 ≤ i ∧ i < (dropRanges t ranges).2.2 := by
  unfold PageTable.dropRanges
  generalize hx : ((([], t), t.pages.length, 0) : (List ℤ × KvPageTable) × ℕ × ℕ) = x
  have hwithin : Within t x.1.2 fun i => x.2.1 ≤ i ∧ i < x.2.2 := by
    subst hx
    exact refl t
  clear hx
  induction ranges generalizing x with
  | nil => exact hwithin
  | cons range ranges ih =>
      rw [List.foldl_cons]
      refine ih _ ?_
      split_ifs
      · exact hwithin
      · -- the window grows to the range
        have hold : Within t x.1.2 fun i => min x.2.1 range.1 ≤ i ∧ i < max x.2.2 (t.rangeEnd range.1 range.2) :=
          hwithin.mono fun i hi => ⟨(min_le_left _ _).trans hi.1, hi.2.trans_le (le_max_left _ _)⟩
        refine hold.trans ((dropRange x.1 range.1 (t.rangeEnd range.1 range.2)).mono fun i hi => ?_)
        exact ⟨(min_le_right _ _).trans hi.1, hi.2.trans_le (le_max_right _ _)⟩

/-- Entries that are dropped and uploaded are the same. -/
theorem upload_published (h : Within t u fun i => start ≤ i ∧ i < finish) (ht : t.Published)
    (hcount : start < finish → finish ≤ start + count) : (u.upload start count).Published := by
  have hdevice : u.devicePages = t.devicePages := by rw [h.frame]
  refine ht.congr (u := u.upload start count) (by rw [h.frame]; rfl) (by rw [h.frame]; rfl) fun i hclean => ?_
  by_cases hin : start ≤ i ∧ i < finish
  · refine clean_upload ?_ ?_ ⟨hin.1, hin.2.trans_le (hcount (by omega))⟩
    · obtain ⟨device, hd, -⟩ := hclean
      rw [hdevice, hd]
      rfl
    · rw [h.length_eq]
      exact hclean.lt
  · exact (hclean.congr hdevice (h.same hin)).upload

theorem published (h : Within t u fun i => start ≤ i ∧ i < finish) (ht : t.Published) (hempty : finish ≤ start) :
    u.Published :=
  ht.congr (by rw [h.frame]) (by rw [h.frame]) fun i hclean =>
    hclean.congr (by rw [h.frame]) (h.same fun hin => by omega)

end KvPageTable.Within

end Entries

/-! ## What a call asks for -/

/-- What the ranges of a call want. -/
def wanted (t : KvPageTable) (ranges : List (ℕ × ℕ)) : List ℕ × Bool :=
  demand t.maxPages t.pages.length t.missing ranges

/-- The allocator has a page for each logical page. -/
def Affords (a : Option (KvPhysicalPageAllocator σ)) (x : KvPageTable × σ) (l : List ℕ) : Prop :=
  ∀ n ∈ budget a x, l.length ≤ n

instance (a : Option (KvPhysicalPageAllocator σ)) (x : KvPageTable × σ) (l : List ℕ) : Decidable (Affords a x l) :=
  inferInstanceAs (Decidable (∀ n ∈ budget a x, l.length ≤ n))

/-- The logical pages that get a page. -/
def served (a : Option (KvPhysicalPageAllocator σ)) (x : KvPageTable × σ) (l : List ℕ) : List ℕ :=
  match budget a x with
  | none => l
  | some n => l.take n

/-- The ranges get all that they want, or nothing below the mark before the call throws. -/
def SafeRanges (a : Option (KvPhysicalPageAllocator σ)) (x : KvPageTable × σ) (ranges : List (ℕ × ℕ)) : Prop :=
  ((wanted x.1 ranges).2 = true ∧ Affords a x (wanted x.1 ranges).1) ∨
    ∀ i ∈ served a x (wanted x.1 ranges).1, x.1.deviceSynced ≤ i

instance (a : Option (KvPhysicalPageAllocator σ)) (x : KvPageTable × σ) (ranges : List (ℕ × ℕ)) :
    Decidable (SafeRanges a x ranges) :=
  inferInstanceAs (Decidable (_ ∨ _))

/-- The logical pages of `ensure_pages`, as a range. -/
def pageRange (t : KvPageTable) (logicalPos count : ℕ) : ℕ × ℕ :=
  (logicalPos / t.pageSize, (logicalPos + count + t.pageSize - 1) / t.pageSize - logicalPos / t.pageSize)

/-- A call leaves no gap below the mark, and does not throw after it has filled a hole there. -/
def Safe (a : Option (KvPhysicalPageAllocator σ)) (x : KvPageTable × σ) : Op → Prop
  | .ensurePages ctxSize logicalPos count =>
      x.1.boundedSlots = true → logicalPos + count ≤ ctxSize →
        (logicalPos + count + x.1.pageSize - 1) / x.1.pageSize ≤ x.1.maxPages →
          SafeRanges a x [pageRange x.1 logicalPos count]
  | .ensureLogicalPageResident logicalPage =>
      logicalPage < x.1.maxPages → Affords a x (wanted x.1 [(logicalPage, 1)]).1 →
        ∀ i < logicalPage, x.1.Clean i
  | .ensureLogicalPageRangesResident ranges => SafeRanges a x ranges
  | _ => True

instance (a : Option (KvPhysicalPageAllocator σ)) (x : KvPageTable × σ) (op : Op) : Decidable (Safe a x op) := by
  unfold Safe
  split <;> infer_instance

/-- The logical pages that a call is asked to make resident. -/
def asked (t : KvPageTable) : Op → List ℕ
  | .ensurePages _ logicalPos count =>
      if count = 0 then []
      else List.range' (pageRange t logicalPos count).1 (pageRange t logicalPos count).2
  | .ensureLogicalPageResident logicalPage => [logicalPage]
  | .ensureLogicalPageRangesResident ranges => ranges.flatMap fun range => List.range' range.1 range.2
  | _ => []

section Ranges

variable {ranges : List (ℕ × ℕ)} {range : ℕ × ℕ} {maxPages size i : ℕ} {missing : ℕ → Bool}

theorem uploadBegin_cons : uploadBegin maxPages (range :: ranges) =
    if range.2 = 0 then uploadBegin maxPages ranges else min range.1 (uploadBegin maxPages ranges) := by
  have hfold : ∀ (l : List (ℕ × ℕ)) (b c : ℕ),
      l.foldl (fun first range => if range.2 = 0 then first else min first range.1) (min c b) =
        min c (l.foldl (fun first range => if range.2 = 0 then first else min first range.1) b) := by
    intro l
    induction l with
    | nil => exact fun _ _ => rfl
    | cons r l ih =>
        intro b c
        rw [List.foldl_cons, List.foldl_cons]
        split_ifs
        · exact ih b c
        · rw [min_assoc, ih]
  unfold uploadBegin
  rw [List.foldl_cons]
  split_ifs
  · rfl
  · rw [min_comm, hfold]

theorem uploadEnd_cons : uploadEnd (range :: ranges) =
    if range.2 = 0 then uploadEnd ranges else max (range.1 + range.2) (uploadEnd ranges) := by
  have hfold : ∀ (l : List (ℕ × ℕ)) (b c : ℕ),
      l.foldl (fun last range => if range.2 = 0 then last else max last (range.1 + range.2)) (max c b) =
        max c (l.foldl (fun last range => if range.2 = 0 then last else max last (range.1 + range.2)) b) := by
    intro l
    induction l with
    | nil => exact fun _ _ => rfl
    | cons r l ih =>
        intro b c
        rw [List.foldl_cons, List.foldl_cons]
        split_ifs
        · exact ih b c
        · rw [max_assoc, ih]
  unfold uploadEnd
  rw [List.foldl_cons]
  split_ifs
  · rfl
  · rw [max_comm, hfold]

theorem uploadBegin_le (h : range ∈ ranges) (hcount : range.2 ≠ 0) : uploadBegin maxPages ranges ≤ range.1 := by
  induction ranges with
  | nil => cases h
  | cons r ranges ih =>
      rw [uploadBegin_cons]
      rcases List.mem_cons.mp h with rfl | h
      · rw [if_neg hcount]
        exact min_le_left _ _
      · split_ifs
        · exact ih h
        · exact (min_le_right _ _).trans (ih h)

theorem le_uploadEnd (h : range ∈ ranges) (hcount : range.2 ≠ 0) : range.1 + range.2 ≤ uploadEnd ranges := by
  induction ranges with
  | nil => cases h
  | cons r ranges ih =>
      rw [uploadEnd_cons]
      rcases List.mem_cons.mp h with rfl | h
      · rw [if_neg hcount]
        exact le_max_left _ _
      · split_ifs
        · exact ih h
        · exact (ih h).trans (le_max_right _ _)

/-- What ranges want is within what is uploaded, and within the capacity. -/
theorem demand_spec (hmissing : ∀ i, missing i = true → i < size) :
    Climbs size (demand maxPages size missing ranges).1 ∧
      (∀ i ∈ (demand maxPages size missing ranges).1,
        (size ≤ i ∨ uploadBegin maxPages ranges ≤ i) ∧ i < uploadEnd ranges ∧ i < maxPages) ∧
      ((demand maxPages size missing ranges).2 = true →
        climb size (demand maxPages size missing ranges).1 = max size (uploadEnd ranges)) := by
  induction ranges generalizing size missing with
  | nil => exact ⟨trivial, List.forall_mem_nil _, fun _ => (max_eq_left (Nat.zero_le _)).symm⟩
  | cons range ranges ih =>
      rw [demand, uploadBegin_cons, uploadEnd_cons]
      by_cases hcount : range.2 = 0
      · rw [if_pos hcount, if_pos hcount, if_pos hcount]
        exact ih hmissing
      rw [if_neg hcount, if_neg hcount, if_neg hcount]
      by_cases hbeyond : maxPages ≤ range.1 ∨ maxPages < range.1 + range.2
      · rw [if_pos hbeyond]
        exact ⟨trivial, List.forall_mem_nil _, fun h => by cases h⟩
      rw [if_neg hbeyond]
      dsimp only
      have hrest : ∀ i, (missing i && !decide (range.1 ≤ i ∧ i < range.1 + range.2)) = true →
          i < max size (range.1 + range.2) := by
        intro i hi
        exact (hmissing i (Bool.and_eq_true_iff.mp hi).1).trans_le (le_max_left _ _)
      obtain ⟨hclimbs, hmem, hend⟩ := ih hrest
      have hclimb : Climbs size (demandRange size missing range) ∧ _ := climbs_demandRange hmissing
      obtain ⟨hrange, hlast⟩ := hclimb
      refine ⟨climbs_append hrange (by rwa [hlast]), ?_, ?_⟩
      · intro i hi
        rcases List.mem_append.mp hi with hi | hi
        · have := mem_demandRange hi
          omega
        · have := hmem i hi
          omega
      · intro h
        rw [climb_append, hlast, hend h, max_assoc]

/-- Ranges without pages want nothing. -/
theorem demand_eq_nil (h : ∀ range ∈ ranges, range.2 = 0) : demand maxPages size missing ranges = ([], true) := by
  induction ranges with
  | nil => rfl
  | cons range ranges ih =>
      rw [List.forall_mem_cons] at h
      rw [demand, if_pos h.1]
      exact ih h.2

end Ranges

/-! ## The operations -/

section Operations

variable {a : Option (KvPhysicalPageAllocator σ)} {fresh : ℕ → ℤ} {x : KvPageTable × σ} {ranges : List (ℕ × ℕ)}

/-- A part of an operation that leaves what is below the mark on the device. -/
def Publishes {α : Type} (op : TableM σ α) : Prop :=
  Triple (fun x => x.1.Published) op (fun _ x => x.1.Published) fun _ x => x.1.Published

theorem takePage_triple (P : KvPageTable → Prop) (i : ℕ) :
    Triple (fun x => P x.1) (takePage a i) (fun _ x => P x.1) fun _ x => P x.1 := by
  intro x hx
  have htable := takePage_table a i x
  cases h : (takePage a i).exec x with
  | mk r y =>
      rw [h] at htable
      have hy : P y.1 := by
        dsimp only at htable
        rwa [htable]
      cases r <;> exact hy

theorem giveBack_triple (P : KvPageTable → Prop) (released : List ℤ) {E : String → KvPageTable × σ → Prop} :
    Triple (fun x => P x.1) (giveBack a released) (fun _ x => P x.1) E := by
  refine Triple.modify fun x hx => ?_
  cases a with
  | none => exact hx
  | some a =>
      dsimp only
      split_ifs <;> exact hx

/-- `ensure_pages` of a table that grows. -/
theorem growPagesChecked_triple (k n : ℕ) :
    Triple (fun x : KvPageTable × σ => x.1.Published ∧ k ≤ x.1.pages.length + n) (growPagesChecked a n)
      (fun _ x => x.1.Published ∧ k ≤ x.1.pages.length) fun _ x => x.1.Published := by
  induction n with
  | zero => exact Triple.pure fun _ h => h
  | succ n ih =>
      refine Triple.bind_get fun x hx => ?_
      have htake := (takePage_triple (a := a) (fun t => t.Published ∧ k ≤ t.pages.length + (n + 1)) x.1.pages.length)
      refine Triple.bind ((htake.conseq ?_ (fun _ _ h => h) fun _ _ h => h.1)) fun p => ?_
      · rintro _ rfl
        exact hx
      refine Triple.bind_get fun y hy => ?_
      refine Triple.ite (fun _ => ?_) fun _ => ?_
      · refine Triple.bind ((giveBack_triple Published [p]).pre ?_) fun _ => Triple.throw fun _ h => h
        rintro _ rfl
        exact hy.1
      · refine Triple.bind (Triple.modify fun z hz => ?_) fun _ => ih
        rw [hz]
        refine ⟨hy.1.push, ?_⟩
        change k ≤ (y.1.pages ++ [p]).length + n
        rw [List.length_append, List.length_singleton]
        omega

/-- **The ranges** are below the mark when the call returns. -/
theorem ensureRanges_spec (ha : Counts a) (hx : x.1.Published) (hsafe : SafeRanges a x ranges) :
    Triple (fun y => y = x) (ensureLogicalPageRangesResident a fresh ranges)
      (fun _ y => y.1.Published ∧ ∀ range ∈ ranges, ∀ i, range.1 ≤ i → i < range.1 + range.2 → i < y.1.deviceSynced)
      fun _ y => y.1.Published := by
  refine Triple.ite (fun hnil => Triple.pure ?_) fun _ => ?_
  · rintro _ rfl
    rw [hnil]
    exact ⟨hx, List.forall_mem_nil _⟩
  intro z hz
  rw [hz, exec_bind, exec_ensureRanges ha ranges hx.mode]
  clear hz z
  have hdemand : Climbs x.1.pages.length (demand x.1.maxPages x.1.pages.length x.1.missing ranges).1 ∧ _ :=
    demand_spec fun i hi => missing_lt hi
  obtain ⟨hclimbs, hmem, hend⟩ := hdemand
  have hlt : ∀ i ∈ (demand x.1.maxPages x.1.pages.length x.1.missing ranges).1, i < x.1.maxPages :=
    fun i hi => (hmem i hi).2.2
  unfold SafeRanges wanted at hsafe
  rcases takeAll_spec ha hx.mode hclimbs hlt with ⟨y, hy, hput, hbudget⟩ | ⟨e, y, n, hy, hbudget, hless, hput⟩
  · rw [hy]
    dsimp only
    cases hvalid : (demand x.1.maxPages x.1.pages.length x.1.missing ranges).2 with
    | false =>
        -- the call throws, and nothing below the mark has changed
        refine hx.put hput fun i hi => ?_
        rw [hvalid] at hsafe
        refine (hsafe.resolve_left fun h => by cases h.1) i ?_
        unfold served
        split
        next => exact hi
        next n hn => rwa [List.take_of_length_le (hbudget n hn)]
    | true =>
        have hlen : y.1.pages.length = max x.1.pages.length (uploadEnd ranges) := hput.length_eq.trans (hend hvalid)
        have hmark : y.1.deviceSynced = x.1.deviceSynced := by rw [hput.frame]
        change KvPageTable.Published (if uploadEnd ranges ≤ uploadBegin y.1.maxPages ranges then y.1
          else y.1.publish fresh (min (uploadBegin y.1.maxPages ranges) y.1.deviceSynced) (uploadEnd ranges)) ∧
          ∀ range ∈ ranges, ∀ i, range.1 ≤ i → i < range.1 + range.2 →
            i < (if uploadEnd ranges ≤ uploadBegin y.1.maxPages ranges then y.1
              else y.1.publish fresh (min (uploadBegin y.1.maxPages ranges) y.1.deviceSynced)
                (uploadEnd ranges)).deviceSynced
        have hmaxPages : y.1.maxPages = x.1.maxPages := by rw [hput.frame]
        rw [hmaxPages, hmark]
        by_cases hnone : uploadEnd ranges ≤ uploadBegin x.1.maxPages ranges
        · have hzero : ∀ range ∈ ranges, range.2 = 0 := by
            intro range hr
            by_contra hcount
            have hbegin : uploadBegin x.1.maxPages ranges ≤ range.1 := uploadBegin_le hr hcount
            have hfinish := le_uploadEnd hr hcount
            omega
          rw [if_pos hnone]
          refine ⟨hx.put hput fun i hi => ?_, fun range hr i hle hlt => ?_⟩
          · rw [demand_eq_nil hzero] at hi
            cases hi
          · rw [hzero range hr] at hlt
            omega
        · rw [if_neg hnone]
          have hmode : y.1.ValidMode := by
            rw [hput.frame]
            exact hx.mode
          refine ⟨Published.publish hmode (by rw [hlen]; exact le_max_right _ _) fun i hi => ?_, ?_⟩
          · rw [hmark] at hi
            by_cases hin : min (uploadBegin x.1.maxPages ranges) x.1.deviceSynced ≤ i ∧ i < uploadEnd ranges
            · exact .inl hin
            · -- what is not uploaded was below the mark, and nothing was put there
              have hclean := hx.mirror i (by omega)
              have hlength := hclean.lt
              refine .inr (hclean.congr (by rw [hput.frame]) (hput.same hlength fun hi => ?_))
              have := hmem i hi
              omega
          · intro range hr i hle hlt
            have hfinish := le_uploadEnd hr (by omega)
            change i < max y.1.deviceSynced (uploadEnd ranges)
            omega
  · rw [hy]
    dsimp only
    refine hx.put hput fun i hi => ?_
    refine (hsafe.resolve_left fun h => absurd (h.2 n hbudget) (not_le.mpr hless)) i ?_
    unfold served
    rwa [hbudget]

/-- Growing the table to a logical page and filling its hole takes what a range of one wants. -/
theorem exec_ensureLogicalPage (ha : Counts a) (hmode : x.1.ValidMode) {logicalPage : ℕ}
    (hlt : logicalPage < x.1.maxPages) (f : KvPageTable → KvPageTable) :
    ((growPages a (logicalPage + 1 - x.1.pages.length) >>= fun _ => fillPage a logicalPage >>= fun _ =>
        modifyTable f) : TableM σ PUnit).exec x =
      match (takeAll a (demandRange x.1.pages.length x.1.missing (logicalPage, 1))).exec x with
      | (.ok _, y) => (.ok ⟨⟩, f y.1, y.2)
      | (.error e, y) => (.error e, y) := by
  rw [← exec_ensureRange ha hmode hlt, exec_bind, exec_bind]
  cases (growPages a (logicalPage + 1 - x.1.pages.length)).exec x with
  | mk r y =>
      cases r with
      | error e => rfl
      | ok _ =>
          dsimp only
          rw [exec_bind, List.range'_one, exec_forM_cons]
          cases (fillPage a logicalPage).exec y with
          | mk r z => cases r <;> rfl

/-- **The logical page** is below the mark when the call returns. -/
theorem ensureLogicalPageResident_spec (ha : Counts a) (hx : x.1.Published) {logicalPage : ℕ}
    (hsafe : Safe a x (.ensureLogicalPageResident logicalPage)) :
    Triple (fun y => y = x) (ensureLogicalPageResident a fresh logicalPage)
      (fun _ y => y.1.Published ∧ logicalPage < y.1.deviceSynced) fun _ y => y.1.Published := by
  refine Triple.bind_get fun z hz => ?_
  subst hz
  refine Triple.ite (fun _ => Triple.throw ?_) fun hlt => ?_
  · rintro _ rfl
    exact hx
  rw [not_le] at hlt
  intro y hy
  rw [hy, exec_ensureLogicalPage ha hx.mode hlt]
  clear hy y
  have hclimb : Climbs z.1.pages.length (demandRange z.1.pages.length z.1.missing (logicalPage, 1)) ∧ _ :=
    climbs_demandRange fun i hi => missing_lt hi
  obtain ⟨hclimbs, hend⟩ := hclimb
  have hcap : ∀ i ∈ demandRange z.1.pages.length z.1.missing (logicalPage, 1), i < z.1.maxPages :=
    fun i hi => (mem_demandRange hi).2.trans_le hlt
  have hwanted : (wanted z.1 [(logicalPage, 1)]).1 = demandRange z.1.pages.length z.1.missing (logicalPage, 1) := by
    unfold wanted demand
    rw [if_neg Nat.one_ne_zero, if_neg (by omega)]
    exact List.append_nil _
  rcases takeAll_spec ha hx.mode hclimbs hcap with ⟨y, hy, hput, hbudget⟩ | ⟨e, y, n, hy, -, hless, hput⟩
  · rw [hy]
    dsimp only
    have hmark : y.1.deviceSynced = z.1.deviceSynced := by rw [hput.frame]
    have hmode : y.1.ValidMode := by
      rw [hput.frame]
      exact hx.mode
    have hbelow : ∀ i < logicalPage, z.1.Clean i := by
      refine hsafe hlt ?_
      rw [hwanted]
      exact hbudget
    refine ⟨Published.publish hmode ?_ fun i hi => ?_, ?_⟩
    · rw [hput.length_eq, hend]
      exact le_max_right _ _
    · by_cases hin : logicalPage ≤ i ∧ i < logicalPage + 1
      · exact .inl hin
      · -- the page is put above the table's end, or into its own hole
        have hclean : z.1.Clean i := by
          by_cases hi' : i < logicalPage
          · exact hbelow i hi'
          · exact hx.mirror i (by omega)
        have hlength := hclean.lt
        refine .inr (hclean.congr (by rw [hput.frame]) (hput.same hlength fun hmem => ?_))
        have := mem_demandRange hmem
        omega
    · exact lt_of_lt_of_le (Nat.lt_succ_self _) (le_max_right _ _)
  · rw [hy]
    dsimp only
    refine hx.put hput fun i hi => ?_
    by_contra hmark
    rw [not_le] at hmark
    -- a hole below the mark is the only page that the call wants
    have hlength := (hx.mirror i hmark).lt
    have hmem := mem_demandRange (List.mem_of_mem_take hi)
    have hone : (demandRange z.1.pages.length z.1.missing (logicalPage, 1)).length ≤ 1 := by
      unfold demandRange
      rw [Nat.sub_eq_zero_of_le (by dsimp only at hmem ⊢; omega), List.range'_one]
      exact List.length_filter_le _ _
    obtain rfl : n = 0 := by omega
    cases hi

/-- **The pages of the tokens** are below the mark when the call returns. -/
theorem ensurePages_spec (ha : Counts a) (hx : x.1.Published) {ctxSize logicalPos count : ℕ}
    (hsafe : Safe a x (.ensurePages ctxSize logicalPos count)) :
    Triple (fun y => y = x) (ensurePages a fresh ctxSize logicalPos count)
      (fun _ y => y.1.Published ∧ ∀ i ∈ asked x.1 (.ensurePages ctxSize logicalPos count), i < y.1.deviceSynced)
      fun _ y => y.1.Published := by
  refine Triple.bind_get fun z hz => ?_
  subst hz
  have hpre : ∀ y, y = z → y.1.Published := by
    rintro _ rfl
    exact hx
  refine Triple.ite (fun hcount => Triple.pure fun y hy => ?_) fun hcount => ?_
  · refine ⟨hpre y hy, ?_⟩
    rw [asked, if_pos hcount]
    exact List.forall_mem_nil _
  refine Triple.ite (fun _ => Triple.throw hpre) fun hctx => ?_
  refine Triple.ite (fun _ => Triple.throw hpre) fun hneed => ?_
  rw [not_lt] at hctx hneed
  refine Triple.ite (fun hbounded => ?_) fun _ => ?_
  · have hranges : SafeRanges a z [pageRange z.1 logicalPos count] := hsafe hbounded hctx hneed
    refine (ensureRanges_spec ha hx hranges).post fun _ y hy => ⟨hy.1, fun i hi => ?_⟩
    rw [asked, if_neg hcount, List.mem_range'_1] at hi
    exact hy.2 _ (List.mem_singleton_self _) i hi.1 hi.2
  · have hgrow := growPagesChecked_triple (a := a) ((logicalPos + count + z.1.pageSize - 1) / z.1.pageSize)
      ((logicalPos + count + z.1.pageSize - 1) / z.1.pageSize - z.1.pages.length)
    refine Triple.bind (hgrow.pre ?_) fun _ => Triple.modify fun y hy => ?_
    · rintro _ rfl
      exact ⟨hx, by omega⟩
    · have hsync : (syncDense fresh y.1).Published ∧ _ := hy.1.syncDense
      obtain ⟨hpublished, hmark⟩ := hsync
      refine ⟨hpublished, fun i hi => ?_⟩
      rw [asked, if_neg hcount, List.mem_range'_1, pageRange] at hi
      change i < (syncDense fresh y.1).deviceSynced
      dsimp only at hi
      omega

theorem publishes_releaseLogicalPages (start count : ℕ) :
    Publishes (releaseLogicalPages a start count : TableM σ PUnit) := by
  refine Triple.bind_get fun x hx => ?_
  refine Triple.ite (fun _ => Triple.pure ?_) fun _ => ?_
  · rintro _ rfl
    exact hx
  have hdrop := Within.dropRange ([], x.1) start (x.1.rangeEnd start count)
  refine Triple.bind (Triple.modify ?_) fun _ => Triple.bind (giveBack_triple
    (fun t => x.1.Within t fun i => start ≤ i ∧ i < x.1.rangeEnd start count) _) fun _ => Triple.modify ?_
  · exact fun _ _ => hdrop
  · intro y hy
    refine hy.upload_published hx fun hlt => ?_
    have hwrap : x.1.rangeEnd start count ≤ (start + count) % 2 ^ 32 := min_le_right _ _
    omega

theorem publishes_releaseLogicalPageRanges (ranges : List (ℕ × ℕ)) :
    Publishes (releaseLogicalPageRanges a ranges : TableM σ PUnit) := by
  refine Triple.bind_get fun x hx => ?_
  refine Triple.ite (fun _ => Triple.pure ?_) fun _ => ?_
  · rintro _ rfl
    exact hx
  have hdrop := Within.dropRanges x.1 ranges
  refine Triple.bind (Triple.modify fun _ _ => hdrop) fun _ => Triple.bind (giveBack_triple
    (fun t => x.1.Within t fun i => (dropRanges x.1 ranges).2.1 ≤ i ∧ i < (dropRanges x.1 ranges).2.2) _) fun _ => ?_
  refine Triple.ite (fun hempty => Triple.pure ?_) fun _ => Triple.modify ?_
  · exact fun y hy => hy.published hx hempty
  · exact fun y hy => hy.upload_published hx fun _ => by omega

theorem publishes_truncateToLogicalPages (logicalPages : ℕ) :
    Publishes (truncateToLogicalPages a logicalPages : TableM σ PUnit) := by
  refine Triple.bind_get fun x hx => ?_
  have hpre : ∀ y, y = x → y.1.Published := by
    rintro _ rfl
    exact hx
  refine Triple.ite (fun _ => Triple.throw hpre) fun _ => ?_
  refine Triple.ite (fun _ => Triple.pure hpre) fun _ => ?_
  refine Triple.bind (Triple.modify ?_) fun _ => giveBack_triple Published _
  rintro _ rfl
  exact hx.shrink logicalPages

theorem publishes_adoptSharedPages (shared : List ℤ) :
    Publishes (adoptSharedPages fresh shared : TableM σ PUnit) := by
  refine Triple.bind_get fun x hx => ?_
  have hpre : ∀ y, y = x → y.1.Published := by
    rintro _ rfl
    exact hx
  refine Triple.ite (fun _ => Triple.throw hpre) fun _ => ?_
  refine Triple.ite (fun _ => Triple.pure hpre) fun _ => ?_
  refine Triple.ite (fun _ => Triple.throw hpre) fun _ => Triple.modify ?_
  rintro _ rfl
  exact hx.adopt shared _

theorem publishes_detachPagesFrom (start : ℕ) : Publishes (detachPagesFrom start : TableM σ (List ℤ)) := by
  refine Triple.bind_get fun x hx => ?_
  have hpre : ∀ y, y = x → y.1.Published := by
    rintro _ rfl
    exact hx
  refine Triple.ite (fun _ => Triple.pure hpre) fun _ => ?_
  refine Triple.bind (Triple.modify ?_) fun _ => Triple.pure fun _ h => h
  rintro _ rfl
  exact hx.shrink start

theorem publishes_reset : Publishes (reset a : TableM σ PUnit) := by
  refine Triple.bind_get fun x hx => ?_
  refine Triple.bind ((giveBack_triple Published _).pre ?_) fun _ => Triple.modify fun y hy => hy.cleared
  rintro _ rfl
  exact hx

/-- **A safe operation** leaves the device's copy right, and one that returns has what it was asked
for below the mark. -/
theorem exec_published (ha : Counts a) (fresh : ℕ → ℤ) (hx : x.1.Published) {op : Op} (hsafe : Safe a x op) :
    Triple (fun y => y = x) (op.exec a fresh)
      (fun _ y => y.1.Published ∧ ∀ i ∈ asked x.1 op, i < y.1.deviceSynced) fun _ y => y.1.Published := by
  have hpre : ∀ y, y = x → y.1.Published := by
    rintro _ rfl
    exact hx
  -- an operation that is asked for nothing
  have hnone : ∀ {program : TableM σ PUnit}, Publishes program →
      Triple (fun y => y = x) (program >>= fun _ => pure [])
        (fun (_ : List ℤ) y => y.1.Published ∧ ∀ i ∈ ([] : List ℕ), i < y.1.deviceSynced)
        fun _ y => y.1.Published :=
    fun h => Triple.bind (h.pre hpre) fun _ => Triple.pure fun _ h => ⟨h, List.forall_mem_nil _⟩
  cases op with
  | ensurePages ctxSize logicalPos count =>
      exact Triple.bind (ensurePages_spec ha hx hsafe) fun _ => Triple.pure fun _ h => h
  | ensureLogicalPageResident logicalPage =>
      refine Triple.bind (ensureLogicalPageResident_spec ha hx hsafe) fun _ => Triple.pure fun y hy => ?_
      exact ⟨hy.1, List.forall_mem_singleton.mpr hy.2⟩
  | ensureLogicalPageRangesResident ranges =>
      refine Triple.bind (ensureRanges_spec ha hx hsafe) fun _ => Triple.pure fun y hy => ⟨hy.1, fun i hi => ?_⟩
      obtain ⟨range, hr, hi⟩ := List.mem_flatMap.mp hi
      rw [List.mem_range'_1] at hi
      exact hy.2 range hr i hi.1 hi.2
  | releaseLogicalPages start count => exact hnone (publishes_releaseLogicalPages start count)
  | releaseLogicalPageRanges ranges => exact hnone (publishes_releaseLogicalPageRanges ranges)
  | truncateToLogicalPages logicalPages => exact hnone (publishes_truncateToLogicalPages logicalPages)
  | adoptSharedPages shared => exact hnone (publishes_adoptSharedPages shared)
  | detachPagesFrom start =>
      exact ((publishes_detachPagesFrom start).pre hpre).post fun _ _ h => ⟨h, List.forall_mem_nil _⟩
  | reset => exact hnone publishes_reset

end Operations

/-! ## Runs -/

/-- An operation of a table, with what a new tensor of it holds, or what its allocator's other users do. -/
inductive Event (σ : Type)
  | call (op : Op) (fresh : ℕ → ℤ)
  | others (s : σ)

/-- The operations on a table that starts reset, whether they return or throw. -/
def calls (a : Option (KvPhysicalPageAllocator σ)) : Machine (KvPageTable × σ) (Event σ) where
  init x := cleared x.1 = x.1 ∧ x.1.ValidMode
  step
    | x, .call op fresh => some ((op.exec a fresh).exec x).2
    | x, .others s => some (x.1, s)

/-- The operation is safe. -/
def SafeEvent (a : Option (KvPhysicalPageAllocator σ)) (x : KvPageTable × σ) : Event σ → Prop
  | .call op _ => Safe a x op
  | .others _ => True

instance (a : Option (KvPhysicalPageAllocator σ)) (x : KvPageTable × σ) (e : Event σ) : Decidable (SafeEvent a x e) := by
  unfold SafeEvent
  split <;> infer_instance

section Runs

variable {a : Option (KvPhysicalPageAllocator σ)} {x : KvPageTable × σ}

theorem published_reachable (ha : Counts a) (hx : ((calls a).restrict (SafeEvent a)).Reachable x) : x.1.Published := by
  have hinv : ((calls a).restrict (SafeEvent a)).Invariant fun x => x.1.Published := by
    constructor
    · rintro x ⟨hcleared, hmode⟩
      refine ⟨hmode, fun i hi => ?_⟩
      rw [← hcleared] at hi
      exact absurd hi (Nat.not_lt_zero _)
    · intro x e y hx h
      obtain ⟨hsafe, h⟩ := Machine.restrict_step.mp h
      cases e with
      | others s =>
          obtain rfl := Option.some.inj h
          exact hx
      | call op fresh =>
          obtain rfl := Option.some.inj h
          have hspec := exec_published ha fresh hx hsafe x rfl
          revert hspec
          cases (op.exec a fresh).exec x with
          | mk r y =>
              cases r with
              | ok pages => exact fun h => h.1
              | error e => exact fun h => h
  exact hinv.reachable hx

/-- **The device's page table.** In a run of safe operations on a table that starts reset, those that
throw among them, the entries below the mark are on the device; and after a safe operation that
returns they are, and the logical pages that it was asked for are below the mark. -/
theorem deviceTable_mirror (ha : Counts a) (hx : ((calls a).restrict (SafeEvent a)).Reachable x) :
    x.1.Mirror ∧ ∀ op fresh pages y, Safe a x op → (op.exec a fresh).exec x = (.ok pages, y) →
      y.1.Mirror ∧ ∀ i ∈ asked x.1 op, i < y.1.deviceSynced := by
  have hpublished := published_reachable ha hx
  refine ⟨hpublished.mirror, fun op fresh pages y hsafe hexec => ?_⟩
  have hspec := exec_published ha fresh hpublished hsafe x rfl
  rw [hexec] at hspec
  exact ⟨hspec.1.mirror, hspec.2⟩

end Runs

/-- A pool of so many pages. -/
def countPool : KvPhysicalPageAllocator ℕ where
  allocatePhysicalPage
    | 0 => (.error "page pool exhausted", 0)
    | n + 1 => (.ok n, n)
  releasePhysicalPages pages n := n + pages.length
  freePages n := n
  physicalPageCapacity _ := 64

theorem countPool_counts : Counts (some countPool) where
  allocate_ok := by
    intro b hb s s' p h
    obtain rfl := Option.some.inj hb
    cases s with
    | zero => cases h
    | succ n =>
        cases h
        exact ⟨Int.natCast_nonneg _, rfl⟩
  allocate_error := by
    intro b hb s s' e h
    obtain rfl := Option.some.inj hb
    cases s with
    | zero => rfl
    | succ n => cases h

/-- A table of four pages. -/
def sampleTable (boundedSlots : Bool) : KvPageTable :=
  cleared ⟨16, 4, "identity", [], [], none, 0, boundedSlots⟩

theorem sampleTable_init {boundedSlots : Bool} {n : ℕ} :
    (calls (some countPool)).init (sampleTable boundedSlots, n) :=
  ⟨by cases boundedSlots <;> rfl, List.mem_cons_self⟩

/-- A call on a table that the pool above serves. -/
def sampleCall (op : Op) (x : KvPageTable × ℕ) : Except String (List ℤ) × KvPageTable × ℕ :=
  (op.exec (some countPool) fun _ => 0).exec x

/-- Two pages of four are there. -/
def sampleServed : KvPageTable × ℕ := (sampleCall (.ensurePages 64 0 17) (sampleTable true, 3)).2

/-- A call for all four got one more, and threw. -/
def sampleExhausted : KvPageTable × ℕ := (sampleCall (.ensureLogicalPageRangesResident [(0, 4)]) sampleServed).2

/-- A call for the three that are there. -/
def samplePublished : KvPageTable × ℕ := (sampleCall (.ensurePages 64 16 32) sampleExhausted).2

theorem sampleExhausted_reachable :
    ((calls (some countPool)).restrict (SafeEvent (some countPool))).Reachable sampleExhausted :=
  ⟨(sampleTable true, 3), [.call (.ensurePages 64 0 17) fun _ => 0,
    .call (.ensureLogicalPageRangesResident [(0, 4)]) fun _ => 0], sampleTable_init, rfl⟩

/-- The failed call leaves a page that the device does not have; the next one that asks for it
publishes it. -/
theorem deviceTable_mirror_afterThrow :
    sampleCall (.ensureLogicalPageRangesResident [(0, 4)]) sampleServed =
      (.error "page pool exhausted", sampleExhausted) ∧
    sampleExhausted.1.pages = [2, 1, 0, -1] ∧ sampleExhausted.1.deviceSynced = 2 ∧ sampleExhausted.1.Mirror ∧
    sampleCall (.ensurePages 64 16 32) sampleExhausted = (.ok [], samplePublished) ∧
    samplePublished.1.Mirror ∧ ∀ i ∈ [1, 2], i < samplePublished.1.deviceSynced := by
  obtain ⟨hmirror, hreturns⟩ := deviceTable_mirror countPool_counts sampleExhausted_reachable
  have hexec : sampleCall (.ensurePages 64 16 32) sampleExhausted = (.ok [], samplePublished) := Prod.ext rfl rfl
  obtain ⟨hafter, hbelow⟩ := hreturns (.ensurePages 64 16 32) _ _ _ (by decide +kernel) hexec
  exact ⟨Prod.ext rfl rfl, rfl, rfl, hmirror, hexec, hafter, hbelow⟩

/-- A page beyond the table's end is published without those before it; and a call that throws leaves
a page in a hole that the device does not have. -/
theorem deviceTable_gap :
    (∃ x y, (calls (some countPool)).Reachable x ∧
      ((Op.ensureLogicalPageResident 3).exec (some countPool) fun _ => 0).exec x = (.ok [], y) ∧ ¬ y.1.Mirror) ∧
    ∃ s x y, (calls (some countPool)).Reachable s ∧
      ((Op.ensureLogicalPageRangesResident [(0, 2)]).exec (some countPool) fun _ => 0).exec s =
        (.error "page pool exhausted", x) ∧
      ((Op.ensureLogicalPageResident 3).exec (some countPool) fun _ => 0).exec x = (.ok [], y) ∧ ¬ y.1.Mirror := by
  constructor
  · exact ⟨(sampleTable false, 4), _, (.of_init sampleTable_init), rfl, by decide⟩
  · have hreach : (calls (some countPool)).Reachable
        ((((Op.ensureLogicalPageRangesResident [(3, 1)]).exec (some countPool) fun _ => 0).exec
          (sampleTable true, 2)).2) :=
      ⟨(sampleTable true, 2), [.call (.ensureLogicalPageRangesResident [(3, 1)]) fun _ => 0], sampleTable_init, rfl⟩
    exact ⟨_, _, _, hreach, rfl, rfl, by decide⟩

end Qw3.PageTable
