import Qw3.Store.Branches
import Qw3.Store.Legacy

/-!
# The clean backing of a block

`ssd_clean` says that the NVMe slot of a block holds its current tokens.  A call
that adds tokens to a block or drops some has to clear it.

* `Backing` — how often the tokens of each block changed, and the count at which
  the flag was set; `NoStaleBacking` — the two agree where the flag is set.
* `KeepsBacking` — the calls that do not change a block behind its flag: all but
  an extension or a shrinking of a clean block of a legacy store, and a rewind
  that drops a clean block whole.
* `cleanBacking`, `staleBacking_afterTruncate`.

A re-RoPE moves the working K of a block; its tokens stay what they are.
-/

namespace Qw3.Store

open Qw3.Repository (KvMemBlockHandle)
open Qw3.Gc

/-- The identity of a block and its token extent. -/
def KvMemBlock.extent (b : KvMemBlock) : ℕ × ℕ × ℕ × ℕ :=
  (b.repositoryGeneration, b.historyPosStart, b.origPosStart, b.nTokens)

theorem extent_of_sameExtent {b b' : KvMemBlock} (h : b.SameExtent b') : b'.extent = b.extent := by
  unfold KvMemBlock.extent
  rw [h.repositoryGeneration, h.historyPosStart, h.origPosStart, h.nTokens]

/-- How often the tokens of a block changed, and the count when its flag was
last set. -/
structure Backing where
  changes : ℕ → ℕ
  cleanAt : ℕ → ℕ

/-- The block exists and its flag is set. -/
def cleanIn (view : ℕ → Option KvMemBlock) (i : ℕ) : Bool := (view i).any KvMemBlock.ssdClean

/-- What a call adds to the history; `sets` are the blocks it asserts the
backing of. -/
def Backing.record (before after : ℕ → Option KvMemBlock) (sets : ℕ → Bool) (h : Backing) :
    Backing :=
  let changes := fun i => h.changes i +
    if (after i).map KvMemBlock.extent = (before i).map KvMemBlock.extent then 0 else 1
  { changes := changes
    cleanAt := fun i =>
      if sets i || (cleanIn after i && !cleanIn before i) then changes i else h.cleanAt i }

/-- Where the flag is set, no token of the block changed since. -/
def NoStaleBacking (view : ℕ → Option KvMemBlock) (h : Backing) : Prop :=
  ∀ i, cleanIn view i = true → h.cleanAt i = h.changes i

/-- A block whose flag stays set keeps its extent. -/
def KeepsClean (before after : ℕ → Option KvMemBlock) : Prop :=
  ∀ i b b', before i = some b → after i = some b' → b.ssdClean = true → b'.ssdClean = true →
    b'.extent = b.extent

/-- **What one call has to do.** -/
theorem NoStaleBacking.record {before after : ℕ → Option KvMemBlock} {sets : ℕ → Bool} {h : Backing}
    (hh : NoStaleBacking before h) (hkeeps : KeepsClean before after) :
    NoStaleBacking after (h.record before after sets) := by
  intro i hi
  unfold Backing.record
  dsimp only
  by_cases hset : (sets i || (cleanIn after i && !cleanIn before i)) = true
  · rw [if_pos hset]
  · rw [if_neg hset]
    have hbefore : cleanIn before i = true := by
      rw [hi] at hset
      simp only [Bool.true_and, Bool.or_eq_true, Bool.not_eq_true', not_or,
        Bool.not_eq_false] at hset
      exact hset.2
    obtain ⟨b, hb, hclean⟩ := (Option.any_eq_true _ _).mp hbefore
    obtain ⟨b', hb', hclean'⟩ := (Option.any_eq_true _ _).mp hi
    rw [hb, hb', Option.map_some, Option.map_some, hkeeps i b b' hb hb' hclean hclean', if_pos rfl,
      Nat.add_zero]
    exact hh i hbefore

/-- **And what a run then has.** -/
theorem noStaleBacking_invariant {σ α : Type} {m : Machine σ α} {I : σ → Prop}
    (hI : m.Invariant I) {view : σ → ℕ → Option KvMemBlock} {sets : α → ℕ → Bool}
    (hinit : ∀ s, m.init s → ∀ i, cleanIn (view s) i = false)
    (hstep : ∀ s a t, I s → m.step s a = some t → KeepsClean (view s) (view t)) :
    (m.withHistory ⟨fun _ => 0, fun _ => 0⟩ fun s a t =>
      Backing.record (view s) (view t) (sets a)).Invariant
        fun p => I p.1 ∧ NoStaleBacking (view p.1) p.2 where
  init p hp := by
    refine ⟨hI.init p.1 hp.1, fun i hi => ?_⟩
    rw [hinit p.1 hp.1 i] at hi
    cases hi
  step p a q hp h := by
    obtain ⟨t, ht, rfl⟩ := Machine.withHistory_step.mp h
    exact ⟨hI.step p.1 a t hp.1 ht, hp.2.record (hstep p.1 a t hp.1 ht)⟩

theorem KeepsClean.of_blocks {n n' : ℕ} {blocks blocks' : ℕ → KvMemBlock}
    (h : ∀ i, i < n → i < n' → (blocks i).ssdClean = true → (blocks' i).ssdClean = true →
      (blocks' i).extent = (blocks i).extent) :
    KeepsClean (fun i => if i < n then some (blocks i) else none)
      (fun i => if i < n' then some (blocks' i) else none) := by
  intro i b b' hb hb' hclean hclean'
  rw [Option.ite_none_right_eq_some] at hb hb'
  obtain ⟨hi, hb⟩ := hb
  obtain ⟨hi', hb'⟩ := hb'
  obtain rfl := Option.some.inj hb
  obtain rfl := Option.some.inj hb'
  exact h i hi hi' hclean hclean'

/-! ## The legacy store -/

namespace Legacy

variable {s t : Legacy}

/-- The call does not change a block behind its flag. -/
def KeepsBacking (s : Legacy) : LegacyAction → Prop
  | .registerAppend n =>
      0 < n → 0 < s.blockCount → (s.blocks (s.blockCount - 1)).nTokens < s.config.blockTokens →
        (s.blocks (s.blockCount - 1)).ssdClean = false
  | .truncateTo position =>
      ∀ i < s.blockCount, (s.blocks i).origPosStart < position →
        position < (s.blocks i).origPosStart + (s.blocks i).nTokens → (s.blocks i).ssdClean = false
  | _ => True

instance (s : Legacy) (a : LegacyAction) : Decidable (s.KeepsBacking a) := by
  unfold KeepsBacking
  split <;> infer_instance

theorem keepsClean_of_blocks (h : ∀ i, i < s.blockCount → i < t.blockCount →
    (s.blocks i).ssdClean = true → (t.blocks i).ssdClean = true →
      (t.blocks i).extent = (s.blocks i).extent) : KeepsClean s.block? t.block? :=
  .of_blocks h

theorem pushBlocks_blocks (fuel remaining : ℕ) (s : Legacy) {i : ℕ} (hi : i < s.blockCount) :
    (pushBlocks fuel remaining s).blocks i = s.blocks i := by
  induction fuel generalizing remaining s with
  | zero => rfl
  | succ fuel ih =>
      unfold pushBlocks
      split_ifs
      · rfl
      · dsimp only
        rw [ih _ _ (by show i < s.blockCount + 1; omega)]
        exact Function.update_of_ne hi.ne _ _

theorem extendLast_blockCount (s : Legacy) (n : ℕ) : (s.extendLast n).1.blockCount = s.blockCount := by
  unfold extendLast
  dsimp only
  split_ifs <;> rfl

/-- Only the last block is extended, and only by tokens that are appended. -/
theorem extendLast_blocks (s : Legacy) (n i : ℕ) :
    (s.extendLast n).1.blocks i = s.blocks i ∨
      i = s.blockCount - 1 ∧ 0 < s.blockCount ∧ (s.blocks i).nTokens < s.config.blockTokens ∧
        0 < n := by
  unfold extendLast
  dsimp only
  split_ifs with hwithin
  · by_cases hi : i = s.blockCount - 1
    · subst hi
      dsimp only
      rw [Function.update_self]
      rcases Nat.eq_zero_or_pos n with rfl | hn
      · left
        simp
      · exact .inr ⟨rfl, hwithin.1, hwithin.2, hn⟩
    · exact .inl (Function.update_of_ne hi _ _)
  · exact .inl rfl

theorem popPast_blocks (position n : ℕ) (s : Legacy) : (popPast position n s).2.blocks = s.blocks := by
  induction n generalizing s with
  | zero => rfl
  | succ n ih =>
      unfold popPast
      dsimp only
      split_ifs
      · exact ih _
      · rfl

/-- What is left ends before the position, or holds it. -/
theorem popPast_last (position n : ℕ) (s : Legacy) (hn : s.blockCount = n) :
    (popPast position n s).2.blockCount ≤ n ∧ (0 < (popPast position n s).2.blockCount →
      (s.blocks ((popPast position n s).2.blockCount - 1)).origPosStart < position) := by
  induction n generalizing s with
  | zero => exact ⟨hn.le, fun h => absurd h (by simp [popPast, hn])⟩
  | succ n ih =>
      unfold popPast
      dsimp only
      split_ifs with hpast
      · obtain ⟨hle, hlast⟩ := ih { s with
          blockCount := n, totalTokens := s.totalTokens - (s.blocks n).nTokens } rfl
        exact ⟨Nat.le_succ_of_le hle, hlast⟩
      · dsimp only
        rw [hn, Nat.add_sub_cancel]
        exact ⟨le_rfl, fun _ => not_le.mp hpast⟩

theorem selectLoop_blocks (c : SelectionConfig) (force : Bool) (ids : List ℕ) (window : ℕ)
    (blocks : ℕ → KvMemBlock) (i : ℕ) :
    ((selectLoop c force ids window blocks).2 i).extent = (blocks i).extent := by
  induction ids generalizing window blocks with
  | nil => rfl
  | cons id rest ih =>
      unfold selectLoop
      dsimp only
      rw [ih]
      by_cases hi : i = id
      · rw [hi, Function.update_self]
        rfl
      · rw [Function.update_of_ne hi]

theorem stagedOut_extent (c : SelectionConfig) (selected : Bool) (b : KvMemBlock) :
    (b.stagedOut c selected).extent = b.extent := by
  unfold KvMemBlock.stagedOut
  split_ifs <;> rfl

theorem keepsClean_modify (s : Legacy) (id : ℕ) {f : KvMemBlock → KvMemBlock}
    (hf : (f (s.blocks id)).extent = (s.blocks id).extent) :
    KeepsClean s.block? (s.modify id f).block? := by
  refine keepsClean_of_blocks fun i _ _ _ _ => ?_
  unfold modify
  split_ifs
  · by_cases hi : i = id
    · subst hi
      exact (congrArg KvMemBlock.extent (Function.update_self i _ _)).trans hf
    · exact congrArg KvMemBlock.extent (Function.update_of_ne hi _ _)
  · rfl

/-- **A call of a legacy store.** -/
theorem keepsClean_step {a : LegacyAction} (hkeeps : s.KeepsBacking a) (h : s.step a = some t) :
    KeepsClean s.block? t.block? := by
  cases a with
  | registerAppend n =>
      have h := toOption_eq_some h
      unfold registerAppend at h
      split_ifs at h
      obtain rfl := Except.ok.inj h
      refine keepsClean_of_blocks fun i hi _ hclean hclean' => ?_
      rw [pushBlocks_blocks _ _ _ (by rw [extendLast_blockCount]; exact hi)] at hclean' ⊢
      rcases s.extendLast_blocks n i with hsame | ⟨rfl, hcount, hlt, hn⟩
      · rw [hsame]
      · rw [hkeeps hn hcount hlt] at hclean
        cases hclean
  | truncateTo position =>
      obtain rfl := Option.some.inj h
      refine keepsClean_of_blocks fun i hi _ hclean hclean' => ?_
      unfold truncateTo at hclean' ⊢
      split_ifs at hclean' ⊢
      · rfl
      · obtain ⟨hle, hlast⟩ := popPast_last position s.blockCount s rfl
        have hblocks := popPast_blocks position s.blockCount s
        revert hle hlast hblocks hclean'
        generalize popPast position s.blockCount s = popped
        intro hclean' hle hlast hblocks
        unfold shrinkLast at hclean' ⊢
        dsimp only at hclean' ⊢
        split_ifs at hclean' ⊢ with hshrink
        · rw [hblocks] at hshrink hclean' ⊢
          by_cases hi' : i = popped.2.blockCount - 1
          · have hfalse := hkeeps i hi (hi' ▸ hlast hshrink.1) (hi' ▸ hshrink.2)
            rw [hfalse] at hclean
            cases hclean
          · dsimp only
            rw [Function.update_of_ne hi']
        · rw [hblocks]
  | setSelection ids force =>
      obtain rfl := Option.some.inj h
      refine keepsClean_of_blocks fun i _ _ _ _ => ?_
      exact (selectLoop_blocks _ _ _ _ _ i).trans (stagedOut_extent _ _ _)
  | clearWorkingSet =>
      obtain rfl := Option.some.inj h
      exact keepsClean_of_blocks fun i _ _ _ _ => rfl
  | setBlockTier id tier cpuSlot nvmeSlot =>
      obtain rfl := Option.some.inj h
      exact keepsClean_modify s id (extent_of_sameExtent (.setTier _ _ _ _ _))
  | setBlockCpuCopy id cpuSlot =>
      obtain rfl := Option.some.inj h
      exact keepsClean_modify s id rfl
  | setBlockSsdBacking id nvmeSlot clean =>
      obtain rfl := Option.some.inj h
      exact keepsClean_modify s id rfl
  | setBlockIoInFlight id inFlight =>
      obtain rfl := Option.some.inj h
      exact keepsClean_modify s id rfl
  | setBlockBakedPos id bakedPos =>
      obtain rfl := Option.some.inj h
      exact keepsClean_modify s id rfl
  | recordBlockRerope id bakedPos =>
      obtain rfl := Option.some.inj h
      exact keepsClean_modify s id (extent_of_sameExtent (.rerope _ _))

end Legacy

/-! ## The repository-backed store -/

namespace State

variable {s t u : State}

/-- `blocks()[i]`, where it exists. -/
def block? (s : State) (i : ℕ) : Option KvMemBlock :=
  if i < s.blockCount then some (s.blocks i) else none

/-- The call does not drop a clean block whole. -/
def KeepsBacking (s : State) : Action → Prop
  | .commitRewind =>
      ∀ w ∈ s.rewind, ∀ sp ∈ w.captured, w.position ≤ (s.blocks sp.handle.slot).historyPosStart →
        (s.blocks sp.handle.slot).ssdClean = false
  | _ => True

instance (s : State) (a : Action) : Decidable (s.KeepsBacking a) := by
  unfold KeepsBacking
  split
  · exact decidable_of_iff (∀ w ∈ s.rewind.toList, ∀ sp ∈ w.captured,
      w.position ≤ (s.blocks sp.handle.slot).historyPosStart →
        (s.blocks sp.handle.slot).ssdClean = false) (by simp)
  · infer_instance

/-- A block either is what it was, flags included, or has lost its backing. -/
structure Unbacked (s t : State) (i : ℕ) : Prop where
  clean : (t.blocks i).ssdClean = false
  flags : t.gcFlags i &&& backingFlags = 0

theorem commitTail_unbacked (s : State) (accepted : ℕ) (tail : Option Span) (i : ℕ) :
    ((s.commitTail accepted tail).blocks i).extent = (s.blocks i).extent ∨
      Unbacked s (s.commitTail accepted tail) i := by
  cases tail with
  | none => exact .inl rfl
  | some sp =>
      unfold commitTail
      dsimp only
      by_cases hi : i = sp.handle.slot
      · subst hi
        by_cases hzero : accepted = 0
        · left
          simp [hzero, KvMemBlock.extent]
        · right
          refine ⟨by simp [hzero], ?_⟩
          simp [hzero, clearFlags_and]
      · exact .inl (congrArg KvMemBlock.extent (Function.update_of_ne hi _ _))

theorem installed_unbacked (s : State) (h : KvMemBlockHandle) (bakedPos validTokens : ℕ)
    (history : OrdMap ℕ KvMemBlockHandle) (i : ℕ) :
    ((s.installed h bakedPos validTokens history).blocks i = s.blocks i ∧
      (s.installed h bakedPos validTokens history).gcFlags i = s.gcFlags i) ∨
      Unbacked s (s.installed h bakedPos validTokens history) i := by
  unfold installed
  by_cases hi : i = h.slot
  · exact .inr ⟨by simp [hi], by simp [hi]⟩
  · exact .inl ⟨Function.update_of_ne hi _ _, Function.update_of_ne hi _ _⟩

/-- What a call does to the blocks' extents: every other block has lost its
backing. -/
def Unbacks (s t : State) : Prop :=
  ∀ i, (t.blocks i).extent = (s.blocks i).extent ∨ Unbacked s t i

theorem install_unbacked {h : KvMemBlockHandle} {bakedPos validTokens : ℕ}
    (hinstall : s.install h bakedPos validTokens = .ok t) (i : ℕ) :
    (t.blocks i = s.blocks i ∧ t.gcFlags i = s.gcFlags i) ∨ Unbacked s t i := by
  unfold install at hinstall
  dsimp only at hinstall
  split_ifs at hinstall
  split at hinstall
  · cases hinstall
  · obtain rfl := Except.ok.inj hinstall
    exact s.installed_unbacked h bakedPos validTokens _ i

theorem commitReserved_unbacked {a : Append} {stop : ℕ} {l : List Span}
    (h : commitReserved a stop l s = .ok t) (i : ℕ) :
    (t.blocks i = s.blocks i ∧ t.gcFlags i = s.gcFlags i) ∨ Unbacked s t i := by
  induction l generalizing s with
  | nil =>
      obtain rfl := Except.ok.inj h
      exact .inl ⟨rfl, rfl⟩
  | cons sp rest ih =>
      rcases commitReserved_cons_eq_ok h with ⟨-, h⟩ | ⟨-, r, u, -, hinstall, h⟩
      · exact ih h
      · rcases ih h with ⟨hblock, hflags⟩ | hunbacked
        · rcases install_unbacked hinstall i with ⟨hblock', hflags'⟩ | hunbacked
          · exact .inl ⟨hblock.trans hblock', hflags.trans hflags'⟩
          · exact .inr ⟨by rw [hblock]; exact hunbacked.clean,
              by rw [hflags]; exact hunbacked.flags⟩
        · exact .inr ⟨hunbacked.clean, hunbacked.flags⟩

theorem commitAppend_unbacks {accepted : ℕ} (h : s.commitAppend accepted = .ok t) : Unbacks s t := by
  obtain ⟨a, u, -, -, -, hcommit, rfl⟩ := commitAppend_eq_ok.mp h
  intro i
  rcases commitReserved_unbacked hcommit i with ⟨hblock, hflags⟩ | hunbacked
  · rcases s.commitTail_unbacked accepted a.tail i with hextent | hunbacked
    · exact .inl ((congrArg KvMemBlock.extent hblock).trans hextent)
    · exact .inr ⟨(congrArg KvMemBlock.ssdClean hblock).trans hunbacked.clean,
        (congrArg (· &&& backingFlags) hflags).trans hunbacked.flags⟩
  · exact .inr ⟨hunbacked.clean, hunbacked.flags⟩

/-- A captured span loses its flags. -/
theorem commitSpan_flags (s : State) (position : ℕ) (sp : Span) (i : ℕ) :
    (s.commitSpan position sp).gcFlags i = s.gcFlags i ∧ i ≠ sp.handle.slot ∨
      (s.commitSpan position sp).gcFlags i &&& backingFlags = 0 := by
  unfold commitSpan setBlock
  dsimp only
  by_cases hi : i = sp.handle.slot
  · right
    subst hi
    split_ifs
    · simp [clearFlags_and]
    · simp
  · left
    refine ⟨?_, hi⟩
    split_ifs
    · exact Function.update_of_ne hi _ _
    · exact Function.update_of_ne hi _ _

theorem commitSpans_flags (position : ℕ) (l : List Span) (s : State) {i : ℕ}
    (hi : i ∈ l.map (fun sp => sp.handle.slot) ∨ s.gcFlags i &&& backingFlags = 0) :
    (l.foldl (fun s sp => s.commitSpan position sp) s).gcFlags i &&& backingFlags = 0 := by
  induction l generalizing s with
  | nil => exact hi.resolve_left List.not_mem_nil
  | cons sp rest ih =>
      refine ih _ ?_
      rcases s.commitSpan_flags position sp i with ⟨hsame, hne⟩ | hcleared
      · rw [hsame]
        refine hi.imp_left fun hmem => ?_
        exact (List.mem_cons.mp hmem).resolve_left hne
      · exact .inr hcleared

/-- **The blocks after a rewind.** -/
theorem commitRewind_blocks (hs : s.Inv) (h : s.commitRewind = .ok t) (i : ℕ) :
    t.blocks i = s.blocks i ∨ ∃ w ∈ s.rewind, (∃ sp ∈ w.captured, sp.handle.slot = i) ∧
      t.blocks i = (s.blocks i).rewound w.position ∧ t.gcFlags i &&& backingFlags = 0 := by
  obtain ⟨w, u, hrewind, rfl, hfold, rfl⟩ := hs.commitRewind_eq h
  have hfold := hfold.blocks i
  split_ifs at hfold with hmem
  · refine .inr ⟨w, hrewind, ?_, hfold, commitSpans_flags _ _ _ (.inl hmem)⟩
    obtain ⟨sp, hsp, hslot⟩ := List.mem_map.mp hmem
    exact ⟨sp, hsp, hslot⟩
  · exact .inl hfold

/-- **What a call does to the extents.**  Only the two commits change any. -/
theorem extent_step {a : Action} (hs : s.Inv) (h : s.step a = some t) (i : ℕ) :
    (t.blocks i).extent = (s.blocks i).extent ∨ Unbacked s t i ∨
      a = .commitRewind ∧ ∃ w ∈ s.rewind, (∃ sp ∈ w.captured, sp.handle.slot = i) ∧
        t.blocks i = (s.blocks i).rewound w.position ∧ t.gcFlags i &&& backingFlags = 0 := by
  by_cases htransactional : a.Transactional
  · rcases htransactional.cases with hopening | ⟨accepted, rfl⟩ | rfl
    · left
      rw [opening_frame hopening h]
    · exact (commitAppend_unbacks (toOption_eq_some h) i).imp_right .inl
    · rcases commitRewind_blocks hs (toOption_eq_some h) i with hsame | hrewound
      · exact .inl (congrArg KvMemBlock.extent hsame)
      · exact .inr (.inr ⟨rfl, hrewound⟩)
  · exact .inl (extent_of_sameExtent ((Mild.of_step hs htransactional h).extent i))

/-- **A call that keeps the backing.** -/
theorem keepsClean_step {a : Action} (hs : s.Inv) (hkeeps : s.KeepsBacking a)
    (h : s.step a = some t) : KeepsClean s.block? t.block? := by
  refine KeepsClean.of_blocks fun i _ _ hclean hclean' => ?_
  rcases extent_step hs h i with hsame | hunbacked | ⟨rfl, w, hw, ⟨sp, hsp, rfl⟩, hrewound, -⟩
  · exact hsame
  · rw [hunbacked.clean] at hclean'
    cases hclean'
  · rw [hrewound] at hclean'
    unfold KvMemBlock.rewound at hclean'
    split_ifs at hclean' with hwithin
    rw [hkeeps w hw sp hsp (not_lt.mp hwithin)] at hclean
    cases hclean

/-- **A call that changes an extent clears the backing flags.** -/
theorem flags_step {a : Action} (hs : s.Inv) (h : s.step a = some t) (i : ℕ)
    (hne : (t.blocks i).extent ≠ (s.blocks i).extent) : t.gcFlags i &&& backingFlags = 0 := by
  rcases extent_step hs h i with hsame | hunbacked | ⟨-, w, -, -, -, hflags⟩
  · exact absurd hsame hne
  · exact hunbacked.flags
  · exact hflags

end State

/-! ## Runs -/

/-- The blocks a call asserts the backing of. -/
def LegacyAction.setsClean : LegacyAction → ℕ → Bool
  | .setBlockSsdBacking id _ clean => fun i => clean && decide (i = id)
  | _ => fun _ => false

/-- The blocks a call asserts the backing of. -/
def Action.setsClean : Action → ℕ → Bool
  | .setBlockSsdBacking id _ clean _ => fun i => clean && decide (i = id)
  | _ => fun _ => false

/-- A legacy store with the history of its blocks' tokens. -/
def legacyBacking (m : Machine Legacy LegacyAction) : Machine (Legacy × Backing) LegacyAction :=
  m.withHistory ⟨fun _ => 0, fun _ => 0⟩ fun s a t => Backing.record s.block? t.block? a.setsClean

/-- A repository-backed store with the history of its blocks' tokens. -/
def repositoryBacking (m : Machine State Action) : Machine (State × Backing) Action :=
  m.withHistory ⟨fun _ => 0, fun _ => 0⟩ fun s a t => Backing.record s.block? t.block? a.setsClean

theorem legacyBacking_invariant :
    (legacyBacking (legacyMachine.restrict Legacy.KeepsBacking)).Invariant fun p =>
      True ∧ NoStaleBacking p.1.block? p.2 := by
  refine noStaleBacking_invariant ⟨fun _ _ => trivial, fun _ _ _ _ _ => trivial⟩
    (fun s hs i => ?_) fun s a t _ h => ?_
  · obtain ⟨c, -, rfl⟩ := hs
    rfl
  · obtain ⟨hkeeps, h⟩ := Machine.restrict_step.mp h
    exact Legacy.keepsClean_step hkeeps h

theorem repositoryBacking_invariant :
    (repositoryBacking (machine.restrict State.KeepsBacking)).Invariant fun p =>
      p.1.Inv ∧ NoStaleBacking p.1.block? p.2 := by
  refine noStaleBacking_invariant (machine_invariant.restrict _) (fun s hs i => ?_) fun s a t hs h => ?_
  · obtain ⟨c, r, -, rfl⟩ := hs
    unfold cleanIn State.block?
    split_ifs <;> rfl
  · obtain ⟨hkeeps, h⟩ := Machine.restrict_step.mp h
    exact State.keepsClean_step hs hkeeps h

/-- **The clean backing.**  In every run whose calls keep the backing, no token
of a block was added or dropped since its flag was set; and every call of a
repository-backed store that changes a block's extent clears its backing flags. -/
theorem cleanBacking (i : ℕ) :
    (∀ p, (legacyBacking (legacyMachine.restrict Legacy.KeepsBacking)).Reachable p →
      NoStaleBacking p.1.block? p.2) ∧
    (∀ p, (repositoryBacking (machine.restrict State.KeepsBacking)).Reachable p →
      NoStaleBacking p.1.block? p.2) ∧
    (∀ s a t, machine.Reachable s → s.step a = some t →
      (t.blocks i).extent ≠ (s.blocks i).extent → t.gcFlags i &&& backingFlags = 0) :=
  ⟨fun _ hp => (legacyBacking_invariant.reachable hp).2,
    fun _ hp => (repositoryBacking_invariant.reachable hp).2,
    fun _ _ _ hs h hne => State.flags_step (machine_invariant.reachable hs) h i hne⟩

/-- A small store of full-size blocks. -/
def smallLegacy : LegacyConfig := ⟨⟨4, true⟩, ⟨true, false, 0, 0, 0⟩⟩

theorem smallLegacy_init :
    (legacyBacking legacyMachine).init (.initial smallLegacy, ⟨fun _ => 0, fun _ => 0⟩) :=
  ⟨⟨smallLegacy, by decide, rfl⟩, rfl⟩

/-- A full block is spilled, cut by `truncate_to`, and still counts as clean. -/
theorem staleBacking_afterTruncate :
    ¬ ∀ p, (legacyBacking legacyMachine).Reachable p → NoStaleBacking p.1.block? p.2 := by
  intro hclaim
  have hrun : ((legacyBacking legacyMachine).run
      (.initial smallLegacy, ⟨fun _ => 0, fun _ => 0⟩)
      [.registerAppend 4, .setBlockSsdBacking 0 0 true, .truncateTo 2]).any (fun p =>
        cleanIn p.1.block? 0 && decide (p.2.cleanAt 0 ≠ p.2.changes 0)) = true := by
    decide +kernel
  obtain ⟨p, hp, hstate⟩ := (legacyBacking legacyMachine).exists_reachable smallLegacy_init hrun
  rw [Bool.and_eq_true, decide_eq_true_eq] at hstate
  exact hstate.2 (hclaim p hp 0 hstate.1)

/-- The same block, promoted and selected again instead. -/
theorem cleanBacking_afterPromotion :
    ∃ p, (legacyBacking (legacyMachine.restrict Legacy.KeepsBacking)).Reachable p ∧
      cleanIn p.1.block? 0 = true ∧ p.2.cleanAt 0 = p.2.changes 0 := by
  have hrun : ((legacyBacking (legacyMachine.restrict Legacy.KeepsBacking)).run
      (.initial smallLegacy, ⟨fun _ => 0, fun _ => 0⟩)
      [.registerAppend 6, .setBlockSsdBacking 0 0 true, .setBlockTier 0 .cpu 1 0,
        .setBlockTier 0 .gpu (-1) (-1), .setSelection [0, 1] false, .truncateTo 5]).any (fun p =>
        cleanIn p.1.block? 0) = true := by
    decide +kernel
  obtain ⟨p, hp, hclean⟩ := (legacyBacking (legacyMachine.restrict
    Legacy.KeepsBacking)).exists_reachable smallLegacy_init hrun
  exact ⟨p, hp, hclean, (cleanBacking 0).1 p hp 0 hclean⟩

end Qw3.Store
