import Mathlib.Data.List.Dedup
import Mathlib.Data.List.Nodup
import Mathlib.Data.Prod.Lex
import Qw3.Harness.Plan

/-!
# One copy of each policy

The policies that a plan pins in the prompt: of the frames that name a key the last, and
of the complete baselines the last.

* `OneCopyEach` — what pinning is for.
* `KeylessOnce` — a policy that names no key is not sent twice.
* `latestByKey_eq_some`, `mem_pinned` — what is pinned.
* `policies_oneCopy` — one copy of each policy is pinned just when the keyless ones are not
  sent twice; and then further copies pin no more.
-/

namespace Qw3.Harness

open Qw3.Stream Search

/-! ## What pinning is for -/

/-- The frame at a place is the last, from a place on, that passes a test. -/
def IsLast (p : PolicyFrameRef → Bool) (policies : List PolicyFrameRef) (lo i : ℕ) : Prop :=
  ∃ f, policies[i]? = some f ∧ lo ≤ i ∧ p f = true ∧ ∀ j g, policies[j]? = some g → p g = true → j ≤ i

/-- A frame names a key. -/
def names (key : Bytes) (f : PolicyFrameRef) : Bool := key ∈ f.keys

/-- The bytes of a frame. -/
def frameBytes (prompt : Bytes) (f : PolicyFrameRef) : Bytes :=
  substr prompt f.promptBegin (f.promptEnd - f.promptBegin)

/-- The span of a frame. -/
def PolicyFrameRef.span (f : PolicyFrameRef) : HarnessByteSpan := ⟨f.promptBegin, f.promptEnd, .projectPolicy⟩

/-- Frame `i` is not before the latest baseline. -/
def Relevant (policies : List PolicyFrameRef) (i : ℕ) : Prop :=
  ∀ b, IsLast (·.completeBaseline) policies 0 b → b ≤ i

/-- The frames that are needed, with their places: the latest baseline and none before it, the
latest frame for each key, and none of which the same bytes come again. -/
structure Needed (prompt : Bytes) (policies : List PolicyFrameRef) (needed : List (PolicyFrameRef × ℕ)) :
    Prop where
  sublist : needed.Sublist policies.zipIdx
  baseline : ∀ {b : ℕ} {f : PolicyFrameRef}, IsLast (·.completeBaseline) policies 0 b → policies[b]? = some f →
    (f, b) ∈ needed
  relevant : ∀ {i : ℕ} {f : PolicyFrameRef}, (f, i) ∈ needed → Relevant policies i
  key : ∀ {i : ℕ} {f : PolicyFrameRef} {key : Bytes}, IsLast (names key) policies 0 i → Relevant policies i →
    policies[i]? = some f → (f, i) ∈ needed
  once : ∀ {i j : ℕ} {f g : PolicyFrameRef}, (f, i) ∈ needed → policies[j]? = some g → i < j →
    frameBytes prompt g ≠ frameBytes prompt f

/-- A plan has one span for each needed frame, and counts them. -/
def OneCopyEach (prompt : Bytes) (messages : List HarnessRenderedMessageSpan) (plan : HarnessSemanticPlan) : Prop :=
  ∃ needed, Needed prompt (policyFrames prompt messages) needed ∧
    (plan.spans.filter fun s => s.reason = .projectPolicy).Perm (needed.map fun f => f.1.span) ∧
    plan.projectPolicyFrameCount = needed.length

/-- No policy that names no key, and is no baseline, comes again after the latest baseline. -/
def KeylessOnce (prompt : Bytes) (messages : List HarnessRenderedMessageSpan) : Prop :=
  ∀ i f, (policyFrames prompt messages)[i]? = some f → f.keys = [] → f.completeBaseline = false →
    Relevant (policyFrames prompt messages) i → ∀ j g, (policyFrames prompt messages)[j]? = some g → i < j →
      frameBytes prompt g ≠ frameBytes prompt f

/-! ## What is pinned -/

section Pinned

variable {policies : List PolicyFrameRef} {i : ℕ} {key : Bytes} {f : PolicyFrameRef}

variable {p : PolicyFrameRef → Bool}

theorem isLast_append_of_not {lo : ℕ} (h : p f = false) :
    IsLast p (policies ++ [f]) lo i ↔ IsLast p policies lo i := by
  have hat : ∀ {j : ℕ} {g : PolicyFrameRef}, p g = true → ((policies ++ [f])[j]? = some g ↔ policies[j]? = some g) := by
    intro j g hg
    rcases Nat.lt_trichotomy j policies.length with hlt | rfl | hgt
    · rw [List.getElem?_append_left hlt]
    · rw [List.getElem?_concat_length, List.getElem?_eq_none le_rfl]
      constructor
      · intro hf
        rw [Option.some.inj hf, hg] at h
        cases h
      · intro hf
        cases hf
    · rw [List.getElem?_eq_none (by rw [List.length_append, List.length_singleton]; omega),
        List.getElem?_eq_none hgt.le]
  constructor
  · rintro ⟨g, hi, hlo, hg, hall⟩
    exact ⟨g, (hat hg).mp hi, hlo, hg, fun j g' hj hg' => hall j g' ((hat hg').mpr hj) hg'⟩
  · rintro ⟨g, hi, hlo, hg, hall⟩
    exact ⟨g, (hat hg).mpr hi, hlo, hg, fun j g' hj hg' => hall j g' ((hat hg').mp hj) hg'⟩

theorem isLast_append_of_pos {lo : ℕ} (hlo : lo ≤ policies.length) (h : p f = true) :
    IsLast p (policies ++ [f]) lo i ↔ i = policies.length := by
  constructor
  · rintro ⟨g, hi, -, -, hall⟩
    obtain ⟨hlt, -⟩ := List.getElem?_eq_some_iff.mp hi
    rw [List.length_append, List.length_singleton] at hlt
    have hle := hall policies.length f List.getElem?_concat_length h
    omega
  · rintro rfl
    refine ⟨f, List.getElem?_concat_length, hlo, h, ?_⟩
    intro j g hj _
    obtain ⟨hlt, -⟩ := List.getElem?_eq_some_iff.mp hj
    rw [List.length_append, List.length_singleton] at hlt
    omega

/-- The last frame that passes a test, found from the front. -/
theorem foldl_last {lo : ℕ} :
    (policies.zipIdx.drop lo).foldl (fun latest f => if p f.1 then some f.2 else latest) none = some i ↔
      IsLast p policies lo i := by
  induction policies using List.reverseRecOn with
  | nil =>
      rw [List.zipIdx_nil, List.drop_nil]
      constructor
      · intro h
        cases h
      · rintro ⟨f, hf, -⟩
        cases hf
  | append_singleton policies f ih =>
      rw [List.zipIdx_append]
      by_cases hlo : lo ≤ policies.length
      · rw [List.drop_append_of_le_length (by rwa [List.length_zipIdx]), List.foldl_append]
        change (if p f then some (0 + policies.length) else _) = some i ↔ _
        cases hp : p f with
        | true =>
            rw [if_pos rfl, isLast_append_of_pos hlo hp, Option.some.injEq, Nat.zero_add, eq_comm]
        | false => rw [if_neg Bool.false_ne_true, isLast_append_of_not hp, ih]
      · rw [List.drop_eq_nil_of_le (by simp; omega)]
        constructor
        · intro h
          cases h
        · rintro ⟨g, hi, hle, -⟩
          obtain ⟨hlt, -⟩ := List.getElem?_eq_some_iff.mp hi
          rw [List.length_append, List.length_singleton] at hlt
          omega

theorem latestBaseline_eq_some :
    latestBaseline policies = some i ↔ IsLast (·.completeBaseline) policies 0 i := by
  have h : (policies.zipIdx.drop 0).foldl
      (fun latest f => if f.1.completeBaseline then some f.2 else latest) none = some i ↔
        IsLast (·.completeBaseline) policies 0 i := foldl_last
  rwa [List.drop_zero] at h

theorem IsLast.unique {lo i j : ℕ} (hi : IsLast p policies lo i)
    (hj : IsLast p policies lo j) : i = j := by
  obtain ⟨f, hf, -, hpf, hfall⟩ := hi
  obtain ⟨g, hg, -, hpg, hgall⟩ := hj
  exact le_antisymm (hgall i f hf hpf) (hfall j g hg hpg)

/-- Where a frame passes a test, there is a last one. -/
theorem exists_isLast (hi : policies[i]? = some f) (hp : p f = true) :
    ∃ b, i ≤ b ∧ IsLast p policies 0 b := by
  induction policies using List.reverseRecOn with
  | nil => cases hi
  | append_singleton policies g ih =>
      obtain ⟨hlt, -⟩ := List.getElem?_eq_some_iff.mp hi
      rw [List.length_append, List.length_singleton] at hlt
      cases hg : p g with
      | true => exact ⟨policies.length, by omega, (isLast_append_of_pos (Nat.zero_le _) hg).mpr rfl⟩
      | false =>
          have hne : i ≠ policies.length := by
            rintro rfl
            rw [List.getElem?_concat_length] at hi
            rw [Option.some.inj hi, hp] at hg
            cases hg
          rw [List.getElem?_append_left (by omega)] at hi
          obtain ⟨b, hle, hlast⟩ := ih hi
          exact ⟨b, hle, (isLast_append_of_not hg).mpr hlast⟩

theorem IsLast.of_append {added : List PolicyFrameRef}
    (h : IsLast p (policies ++ added) 0 i) (hi : i < policies.length) : IsLast p policies 0 i := by
  obtain ⟨f, hf, hlo, hp, hall⟩ := h
  rw [List.getElem?_append_left hi] at hf
  refine ⟨f, hf, hlo, hp, fun j g hj hg => hall j g ?_ hg⟩
  rwa [List.getElem?_append_left (List.getElem?_eq_some_iff.mp hj).1]

/-- The frames from the first relevant one on are those not before the latest baseline. -/
theorem relevant_iff : Relevant policies i ↔ firstRelevantPolicy policies ≤ i := by
  unfold Relevant firstRelevantPolicy
  cases hb : latestBaseline policies with
  | none =>
      refine ⟨fun _ => Nat.zero_le _, fun _ b hlast => ?_⟩
      rw [← latestBaseline_eq_some, hb] at hlast
      cases hlast
  | some b =>
      rw [latestBaseline_eq_some] at hb
      constructor
      · intro h
        exact h b hb
      · intro h b' hb'
        rwa [← hb.unique hb']

/-- A frame's keys are entered at its place. -/
theorem foldl_update {keys : List Bytes} {latest : Bytes → Option ℕ} :
    keys.foldl (fun latest key => Function.update latest key (some i)) latest key =
      if key ∈ keys then some i else latest key := by
  induction keys generalizing latest with
  | nil => rw [if_neg List.not_mem_nil, List.foldl_nil]
  | cons k keys ih =>
      rw [List.foldl_cons, ih]
      by_cases hmem : key ∈ keys
      · rw [if_pos hmem, if_pos (List.mem_cons_of_mem _ hmem)]
      · rw [if_neg hmem]
        by_cases heq : key = k
        · rw [heq, Function.update_self, if_pos List.mem_cons_self]
        · rw [Function.update_of_ne heq, if_neg]
          rw [List.mem_cons]
          exact not_or.mpr ⟨heq, hmem⟩

theorem latestByKey_eq_some : latestByKey policies key = some i ↔
    IsLast (names key) policies (firstRelevantPolicy policies) i := by
  rw [← foldl_last]
  have hfold : ∀ (l : List (PolicyFrameRef × ℕ)) (latest : Bytes → Option ℕ),
      l.foldl (fun latest f => f.1.keys.foldl (fun latest key => Function.update latest key (some f.2)) latest)
        latest key =
      l.foldl (fun latest f => if names key f.1 then some f.2 else latest) (latest key) := by
    intro l
    induction l with
    | nil => exact fun _ => rfl
    | cons f l ih =>
        intro latest
        rw [List.foldl_cons, List.foldl_cons, ih, foldl_update]
        simp only [names, decide_eq_true_eq]
  rw [latestByKey, hfold]

theorem mem_drop_zipIdx {lo : ℕ} : (f, i) ∈ policies.zipIdx.drop lo ↔ policies[i]? = some f ∧ lo ≤ i := by
  rw [List.mem_iff_getElem?]
  simp only [List.getElem?_drop, List.getElem?_zipIdx, Option.map_eq_some_iff, Prod.mk.injEq, Nat.zero_add]
  constructor
  · rintro ⟨k, g, hg, rfl, rfl⟩
    exact ⟨hg, Nat.le_add_right _ _⟩
  · rintro ⟨hf, hle⟩
    exact ⟨i - lo, f, by rwa [Nat.add_sub_cancel' hle], rfl, Nat.add_sub_cancel' hle⟩

/-- A frame is pinned when it is the latest baseline, the latest for one of its keys, or of no
known key. -/
theorem mem_pinned : (f, i) ∈ pinned policies ↔ policies[i]? = some f ∧ Relevant policies i ∧
    (IsLast (·.completeBaseline) policies 0 i ∨ (f.keys = [] ∧ f.completeBaseline = false) ∨
      ∃ key, IsLast (names key) policies 0 i) := by
  rw [pinned, List.mem_filter, mem_drop_zipIdx, and_assoc, relevant_iff, keep, decide_eq_true_eq,
    latestBaseline_eq_some]
  refine and_congr_right fun hf => and_congr_right fun hle => or_congr_right (or_congr_right ?_)
  constructor
  · rintro ⟨key, -, hlast⟩
    obtain ⟨g, hg, -, hrest⟩ := latestByKey_eq_some.mp hlast
    exact ⟨key, g, hg, Nat.zero_le _, hrest⟩
  · rintro ⟨key, g, hg, -, hnames, hall⟩
    obtain rfl : f = g := Option.some.inj (hf.symm.trans hg)
    exact ⟨key, of_decide_eq_true hnames, latestByKey_eq_some.mpr ⟨f, hg, hle, hnames, hall⟩⟩

end Pinned

/-! ## The bytes of a frame -/

section Bytes

variable {prompt : Bytes} {messages : List HarnessRenderedMessageSpan} {f g : PolicyFrameRef}

/-- A policy is a reminder in the prompt, and is what its body says. -/
theorem policyFrames_spec (hf : f ∈ policyFrames prompt messages) :
    f.promptBegin ≤ f.promptEnd ∧ f.promptEnd ≤ prompt.length ∧ ∃ body,
      frameBytes prompt f = kReminderOpen ++ body ++ kReminderClose ∧
      f.keys = instructionKeys body ∧ f.completeBaseline = (classifyFrame 0 0 body).completeBaseline := by
  obtain ⟨⟨span, order⟩, -, hf⟩ := List.mem_flatMap.mp hf
  change f ∈ messagePolicies prompt order span at hf
  unfold messagePolicies at hf
  split_ifs at hf with hinvalid
  · cases hf
  · obtain ⟨-, hcontent, hprompt, -, -⟩ :=
      validContentBounds_iff.mp (Bool.eq_true_of_not_eq_false fun h => hinvalid (.inl h))
    obtain ⟨frame, hframe, rfl⟩ := List.mem_map.mp hf
    obtain ⟨hle, hend, body, hbody, hclass⟩ := reminderFrames_spec (List.mem_filter.mp hframe).1
    have hlen : (contentOf prompt span).length ≤ span.contentEnd - span.contentBegin := length_substr_le _ _ _
    dsimp only
    refine ⟨by omega, by omega, body, ?_, by rw [hclass]; rfl, by rw [hclass]; rfl⟩
    rw [← hbody, frameBytes, contentOf, substr_substr (by omega)]
    congr 1
    dsimp only
    omega

/-- What a policy is follows from its bytes. -/
theorem same_of_frameBytes (hf : f ∈ policyFrames prompt messages) (hg : g ∈ policyFrames prompt messages)
    (h : frameBytes prompt f = frameBytes prompt g) :
    f.keys = g.keys ∧ f.completeBaseline = g.completeBaseline := by
  obtain ⟨-, -, body, hbody, hkeys, hbaseline⟩ := policyFrames_spec hf
  obtain ⟨-, -, body', hbody', hkeys', hbaseline'⟩ := policyFrames_spec hg
  rw [hbody, hbody'] at h
  obtain rfl := List.append_cancel_left (List.append_cancel_right h)
  exact ⟨hkeys.trans hkeys'.symm, hbaseline.trans hbaseline'.symm⟩

end Bytes

/-! ## One copy of each -/

section OneCopy

variable {kind : HarnessKind} {prompt : Bytes} {messages : List HarnessRenderedMessageSpan}

/-- What is pinned is needed, when no keyless policy comes twice. -/
theorem needed_pinned (h : KeylessOnce prompt messages) :
    Needed prompt (policyFrames prompt messages) (pinned (policyFrames prompt messages)) := by
  refine ⟨(List.filter_sublist).trans (List.drop_sublist _ _), ?_, ?_, ?_, ?_⟩
  · intro b f hlast hf
    refine mem_pinned.mpr ⟨hf, ?_, .inl hlast⟩
    intro b' hb'
    exact (hb'.unique hlast).le
  · intro i f hf
    exact (mem_pinned.mp hf).2.1
  · intro i f key hlast hrelevant hf
    exact mem_pinned.mpr ⟨hf, hrelevant, .inr (.inr ⟨key, hlast⟩)⟩
  · intro i j f g hpinned hg hlt hbytes
    obtain ⟨hf, hrelevant, hkeep⟩ := mem_pinned.mp hpinned
    obtain ⟨hkeys, hbaseline⟩ :=
      same_of_frameBytes (List.mem_of_getElem? hg) (List.mem_of_getElem? hf) hbytes
    rcases hkeep with ⟨f', hf', -, hp, hall⟩ | ⟨hnone, hnot⟩ | ⟨key, f', hf', -, hp, hall⟩
    · -- the copy would be the latest baseline
      obtain rfl : f = f' := Option.some.inj (hf.symm.trans hf')
      have := hall j g hg (hbaseline.trans hp)
      omega
    · exact h i f hf hnone hnot hrelevant j g hg hlt hbytes
    · -- the copy would be the latest with the key
      obtain rfl : f = f' := Option.some.inj (hf.symm.trans hf')
      have := hall j g hg (by rw [names, hkeys]; exact hp)
      omega

/-- What spans are sorted by. -/
def HarnessByteSpan.key (a : HarnessByteSpan) : ℕ ×ₗ ℕ ×ₗ ℕ :=
  toLex (a.begin', toLex (a.finish, a.reason.ctorIdx))

theorem less_iff {a b : HarnessByteSpan} : a.less b = true ↔ a.key < b.key := by
  unfold HarnessByteSpan.less HarnessByteSpan.key
  rw [Prod.Lex.toLex_lt_toLex, Prod.Lex.toLex_lt_toLex]
  split_ifs with hbegin hfinish
  · simp [hbegin]
  · rw [not_not] at hbegin
    simp [hbegin, hfinish]
  · rw [not_not] at hbegin hfinish
    simp [hbegin, hfinish]

theorem key_injective {a b : HarnessByteSpan} (h : a.key = b.key) : a = b := by
  obtain ⟨begin', finish, reason⟩ := a
  obtain ⟨begin'', finish', reason'⟩ := b
  have hprod := toLex.injective h
  obtain ⟨rfl, hrest⟩ := Prod.mk.inj hprod
  obtain ⟨rfl, hreason⟩ := Prod.mk.inj (toLex.injective hrest)
  congr 1
  cases reason <;> cases reason' <;> first | rfl | cases hreason

theorem nodup_sortUnique (l : List HarnessByteSpan) : (sortUnique HarnessByteSpan.less l).Nodup := by
  have hle : ∀ {a b : HarnessByteSpan}, a.less b = false ↔ b.key ≤ a.key := by
    intro a b
    rw [← not_lt, ← less_iff, Bool.not_eq_true]
  have hpairwise : (sortUnique HarnessByteSpan.less l).Pairwise fun a b => a.less b = true := by
    refine pairwise_sortUnique ?_ ?_ ?_
    · intro a b hab
      exact hle.mpr (less_iff.mp hab).le
    · intro a b c hab hbc
      exact hle.mpr ((hle.mp hbc).trans (hle.mp hab))
    · intro a _ b _ hab hba
      exact key_injective (le_antisymm (hle.mp hba) (hle.mp hab))
  refine hpairwise.imp ?_
  rintro a _ hab rfl
  exact lt_irrefl _ (less_iff.mp hab)

/-- The policy spans of a plan are those of the pinned frames. -/
theorem mem_policySpans {controlPrefixEnd : ℕ} {s : HarnessByteSpan} (hkind : kind ≠ .none) :
    s ∈ (deriveHarnessSemanticPlan kind prompt messages controlPrefixEnd).spans.filter
        (fun s => s.reason = .projectPolicy) ↔
      s ∈ (pinned (policyFrames prompt messages)).map fun f => f.1.span := by
  rw [deriveHarnessSemanticPlan, if_neg hkind]
  dsimp only
  rw [List.mem_filter, mem_sortUnique, decide_eq_true_eq, planSpans]
  constructor
  · rintro ⟨hmem, hreason⟩
    rw [List.mem_append, List.mem_append, List.mem_append] at hmem
    rcases hmem with ((hcontrol | hpolicy) | hquery) | hroot
    · split_ifs at hcontrol
      · rw [List.mem_singleton.mp hcontrol] at hreason
        cases hreason
      · cases hcontrol
    · exact hpolicy
    · obtain ⟨span, -, rfl⟩ := Option.map_eq_some_iff.mp (Option.mem_toList.mp hquery)
      cases hreason
    · split at hroot
      next =>
        split_ifs at hroot
        · cases hroot
        · obtain ⟨span, -, rfl⟩ := Option.map_eq_some_iff.mp (Option.mem_toList.mp hroot)
          cases hreason
      next => cases hroot
  · intro hpolicy
    refine ⟨List.mem_append_left _ (List.mem_append_left _ (List.mem_append_right _ hpolicy)), ?_⟩
    obtain ⟨f, -, rfl⟩ := List.mem_map.mp hpolicy
    rfl

/-- Needed frames have different bytes. -/
theorem Needed.nodup_frameBytes {policies : List PolicyFrameRef} {needed : List (PolicyFrameRef × ℕ)}
    (h : Needed prompt policies needed) : (needed.map fun f => frameBytes prompt f.1).Nodup := by
  have hindices : (policies.zipIdx.map Prod.snd).Pairwise (· < ·) := by
    rw [List.zipIdx_map_snd]
    exact List.pairwise_lt_range'
  rw [List.pairwise_map] at hindices
  refine List.pairwise_map.mpr (((hindices.sublist h.sublist).imp_of_mem ?_))
  intro f g hf hg hlt hbytes
  exact h.once hf (List.mem_zipIdx_iff_getElem?.mp (h.sublist.mem hg)) hlt hbytes.symm

/-- What spans are the same have the same bytes. -/
theorem nodup_span {frames : List (PolicyFrameRef × ℕ)} (h : (frames.map fun f => frameBytes prompt f.1).Nodup) :
    (frames.map fun f => f.1.span).Nodup := by
  refine List.Nodup.of_map (fun s : HarnessByteSpan => substr prompt s.begin' (s.finish - s.begin')) ?_
  rwa [List.map_map]

theorem oneCopyEach_of_keylessOnce {controlPrefixEnd : ℕ} (hkind : kind ≠ .none) (h : KeylessOnce prompt messages) :
    OneCopyEach prompt messages (deriveHarnessSemanticPlan kind prompt messages controlPrefixEnd) := by
  have hneeded := needed_pinned h
  refine ⟨_, hneeded, ?_, by rw [deriveHarnessSemanticPlan, if_neg hkind]⟩
  refine (List.perm_ext_iff_of_nodup (List.Nodup.filter _ ?_) (nodup_span hneeded.nodup_frameBytes)).mpr
    fun s => mem_policySpans hkind
  rw [deriveHarnessSemanticPlan, if_neg hkind]
  exact nodup_sortUnique _

/-- The spans of all pinned frames are different when as many spans as frames are counted. -/
theorem keylessOnce_of_oneCopyEach {controlPrefixEnd : ℕ} (hkind : kind ≠ .none)
    (h : OneCopyEach prompt messages (deriveHarnessSemanticPlan kind prompt messages controlPrefixEnd)) :
    KeylessOnce prompt messages := by
  obtain ⟨needed, hneeded, hperm, hcount⟩ := h
  have hspans : ∀ s, s ∈ needed.map (fun f => f.1.span) ↔
      s ∈ (pinned (policyFrames prompt messages)).map fun f => f.1.span :=
    fun s => hperm.mem_iff.symm.trans (mem_policySpans hkind)
  have hnodup : ((pinned (policyFrames prompt messages)).map fun f => f.1.span).Nodup := by
    have hneededSpans := nodup_span hneeded.nodup_frameBytes
    have hdedup : ((pinned (policyFrames prompt messages)).map fun f => f.1.span).dedup.Perm
        (needed.map fun f => f.1.span) :=
      (List.perm_ext_iff_of_nodup (List.nodup_dedup _) hneededSpans).mpr fun s => by
        rw [List.mem_dedup, hspans]
    rw [deriveHarnessSemanticPlan, if_neg hkind] at hcount
    rw [← List.dedup_eq_self]
    refine (List.dedup_sublist _).eq_of_length ?_
    rw [hdedup.length_eq, List.length_map, List.length_map]
    exact hcount.symm
  intro i f hf hkeys hbaseline hrelevant j g hg hlt hbytes
  have hpinned : (f, i) ∈ pinned (policyFrames prompt messages) :=
    mem_pinned.mpr ⟨hf, hrelevant, .inr (.inl ⟨hkeys, hbaseline⟩)⟩
  obtain ⟨⟨f', i'⟩, hf', hspan⟩ := List.mem_map.mp ((hspans f.span).mpr (List.mem_map_of_mem hpinned))
  have hf'' := List.mem_zipIdx_iff_getElem?.mp (hneeded.sublist.mem hf')
  have hsame : frameBytes prompt f' = frameBytes prompt f :=
    congrArg (fun s : HarnessByteSpan => substr prompt s.begin' (s.finish - s.begin')) hspan
  rcases Nat.lt_or_ge i' j with hlt' | hge
  · exact hneeded.once hf' hg hlt' (hbytes.trans hsame.symm)
  · -- the needed frame is behind the first, and is pinned as well
    obtain ⟨hkeys', hbaseline'⟩ := same_of_frameBytes (List.mem_of_getElem? hf'') (List.mem_of_getElem? hf) hsame
    have hpinned' : (f', i') ∈ pinned (policyFrames prompt messages) :=
      mem_pinned.mpr ⟨hf'', hneeded.relevant hf', .inr (.inl ⟨hkeys'.trans hkeys, hbaseline'.trans hbaseline⟩)⟩
    have heq := List.inj_on_of_nodup_map hnodup hpinned' hpinned hspan
    have := congrArg Prod.snd heq
    dsimp only at this
    omega

end OneCopy

/-! ## Further copies -/

/-- The messages lie in a prompt. -/
def InPrompt (prompt : Bytes) (messages : List HarnessRenderedMessageSpan) : Prop :=
  ∀ span ∈ messages, span.segmentEnd ≤ prompt.length ∧ span.contentEnd ≤ prompt.length

/-- The policies of further messages are copies of pinned ones. -/
def Copies (prompt prompt' : Bytes) (messages more : List HarnessRenderedMessageSpan) : Prop :=
  ∀ f ∈ policyFrames prompt' (messages ++ more), messages.length ≤ f.messageOrder →
    ∃ g ∈ pinned (policyFrames prompt messages), frameBytes prompt' f = frameBytes prompt g.1

section Copies

variable {prompt prompt' : Bytes} {messages more : List HarnessRenderedMessageSpan}

/-- The policies of messages stay the same in a longer prompt. -/
theorem policyFrames_longer (hprompt : prompt <+: prompt') (hin : InPrompt prompt messages) :
    policyFrames prompt' messages = policyFrames prompt messages := by
  obtain ⟨rest, rfl⟩ := hprompt
  refine List.flatMap_congr fun m hm => ?_
  obtain ⟨hsegment, hcontent⟩ := hin m.1 (List.fst_mem_of_mem_zipIdx hm)
  have hbounds : validContentBounds (prompt ++ rest) m.1 = validContentBounds prompt m.1 := by
    rw [Bool.eq_iff_iff, validContentBounds_iff, validContentBounds_iff, List.length_append]
    omega
  unfold messagePolicies
  rw [hbounds]
  split_ifs with hinvalid
  · rfl
  · obtain ⟨-, hle, -⟩ := validContentBounds_iff.mp (Bool.eq_true_of_not_eq_false fun h => hinvalid (.inl h))
    rw [contentOf, substr_append (by omega), contentOf]

theorem frameBytes_longer (hprompt : prompt <+: prompt') {f : PolicyFrameRef}
    (hf : f ∈ policyFrames prompt messages) : frameBytes prompt' f = frameBytes prompt f := by
  obtain ⟨rest, rfl⟩ := hprompt
  obtain ⟨hle, hend, -⟩ := policyFrames_spec hf
  exact substr_append (by omega) rest

/-- The policies of further messages follow. -/
theorem policyFrames_append (prompt : Bytes) (messages more : List HarnessRenderedMessageSpan) :
    ∃ added, policyFrames prompt (messages ++ more) = policyFrames prompt messages ++ added ∧
      ∀ f ∈ added, messages.length ≤ f.messageOrder := by
  unfold policyFrames
  rw [List.zipIdx_append, List.flatMap_append]
  refine ⟨_, rfl, ?_⟩
  intro f hf
  obtain ⟨⟨span, order⟩, hm, hf⟩ := List.mem_flatMap.mp hf
  have horder := List.le_snd_of_mem_zipIdx hm
  change f ∈ messagePolicies prompt order span at hf
  unfold messagePolicies at hf
  split_ifs at hf
  · cases hf
  · obtain ⟨frame, -, rfl⟩ := List.mem_map.mp hf
    dsimp only at horder ⊢
    omega

/-- Copies of pinned frames pin no more. -/
theorem length_pinned_le (hprompt : prompt <+: prompt') (hin : InPrompt prompt messages)
    (hcopies : Copies prompt prompt' messages more) (honce : KeylessOnce prompt' (messages ++ more)) :
    (pinned (policyFrames prompt' (messages ++ more))).length ≤ (pinned (policyFrames prompt messages)).length := by
  have hnodup := (needed_pinned honce).nodup_frameBytes
  have hsub : (pinned (policyFrames prompt' (messages ++ more))).map (fun f => frameBytes prompt' f.1) ⊆
      (pinned (policyFrames prompt messages)).map fun f => frameBytes prompt f.1 := by
    intro bytes hbytes
    obtain ⟨⟨f, i⟩, hf, rfl⟩ := List.mem_map.mp hbytes
    obtain ⟨added, hadded, horder⟩ := policyFrames_append prompt' messages more
    rw [policyFrames_longer hprompt hin] at hadded
    obtain ⟨hi, hrelevant, hkeep⟩ := mem_pinned.mp hf
    rcases Nat.lt_or_ge i (policyFrames prompt messages).length with hlt | hge
    · -- a frame that was there before was pinned before
      rw [hadded] at hi hrelevant hkeep
      rw [List.getElem?_append_left hlt] at hi
      rw [frameBytes_longer hprompt (List.mem_of_getElem? hi)]
      refine List.mem_map_of_mem (f := fun f : PolicyFrameRef × ℕ => frameBytes prompt f.1)
        (mem_pinned.mpr ⟨hi, ?_, ?_⟩)
      · rintro b ⟨g, hg, -, hbaseline, -⟩
        have hg' : (policyFrames prompt messages ++ added)[b]? = some g := by
          rwa [List.getElem?_append_left (List.getElem?_eq_some_iff.mp hg).1]
        obtain ⟨b', hle, hlast⟩ := exists_isLast hg' hbaseline
        exact hle.trans (hrelevant b' hlast)
      · exact hkeep.imp (·.of_append hlt) (Or.imp_right fun ⟨key, hlast⟩ => ⟨key, hlast.of_append hlt⟩)
    · have hmem : f ∈ policyFrames prompt' (messages ++ more) := List.mem_of_getElem? hi
      have hnew : f ∈ added := by
        rw [hadded, List.getElem?_append_right hge] at hi
        exact List.mem_of_getElem? hi
      obtain ⟨g, hg, hsame⟩ := hcopies f hmem (horder f hnew)
      rw [hsame]
      exact List.mem_map_of_mem (f := fun f : PolicyFrameRef × ℕ => frameBytes prompt f.1) hg
  have hle := (List.subperm_of_subset hnodup hsub).length_le
  rwa [List.length_map, List.length_map] at hle

end Copies

/-- **One copy of each policy.** A plan pins one copy of each policy just when no policy that
names no key comes again with the same bytes; and where further messages bring none such, copies of
what is pinned pin no more. -/
theorem policies_oneCopy {kind : HarnessKind} (hkind : kind ≠ .none) (prompt : Bytes)
    (messages : List HarnessRenderedMessageSpan) (controlPrefixEnd : ℕ) :
    (OneCopyEach prompt messages (deriveHarnessSemanticPlan kind prompt messages controlPrefixEnd) ↔
        KeylessOnce prompt messages) ∧
      ∀ prompt' more controlPrefixEnd', prompt <+: prompt' → InPrompt prompt messages →
        Copies prompt prompt' messages more → KeylessOnce prompt' (messages ++ more) →
        (deriveHarnessSemanticPlan kind prompt' (messages ++ more) controlPrefixEnd').projectPolicyFrameCount ≤
          (deriveHarnessSemanticPlan kind prompt messages controlPrefixEnd).projectPolicyFrameCount := by
  refine ⟨⟨keylessOnce_of_oneCopyEach hkind, oneCopyEach_of_keylessOnce hkind⟩, ?_⟩
  intro prompt' more controlPrefixEnd' hprompt hin hcopies honce
  rw [deriveHarnessSemanticPlan, if_neg hkind, deriveHarnessSemanticPlan, if_neg hkind]
  exact length_pinned_le hprompt hin hcopies honce

/-- A reminder that speaks of instructions but names none. -/
def keylessReminder : Bytes := "<system-reminder>agents.md</system-reminder>".toUTF8.toList

/-- The reminder, in two results one after the other. -/
def keylessMessages : List HarnessRenderedMessageSpan :=
  [⟨0, "tool", 0, 44, 0, 44⟩, ⟨1, "tool", 44, 88, 44, 88⟩]

/-- A reminder of instructions that names a file. -/
def keyedReminder : Bytes := "<system-reminder>Instructions from: a</system-reminder>".toUTF8.toList

/-- A reminder of so many bytes, in two results one after the other. -/
def twice (n : ℕ) : List HarnessRenderedMessageSpan := [⟨0, "tool", 0, n, 0, n⟩, ⟨1, "tool", n, n + n, n, n + n⟩]

theorem reminderFrames_one {content : Bytes} {close : ℕ} (hopen : findFrom kReminderOpen content 0 = some 0)
    (hclose : findFrom kReminderClose content (0 + kReminderOpen.length) = some close)
    (hend : findFrom kReminderOpen content (close + kReminderClose.length) = none) :
    reminderFrames content = [classifyFrame 0 (close + kReminderClose.length)
      (substr content (0 + kReminderOpen.length) (close - (0 + kReminderOpen.length)))] := by
  rw [reminderFrames, reminderFramesFrom_some hopen hclose, reminderFramesFrom_none hend]

/-- Each reminder is one frame; the one that names a file is keyed by it. -/
theorem reminderFrames_samples : reminderFrames keylessReminder = [⟨0, 44, true, false, []⟩] ∧
    reminderFrames keyedReminder = [⟨0, 55, true, false, [[0x61]]⟩] ∧ keylessReminder.length = 44 ∧
    keyedReminder.length = 55 := by
  obtain ⟨⟨hopen, hclose, hend⟩, hopen', hclose', hend'⟩ :
      (findFrom kReminderOpen keylessReminder 0 = some 0 ∧
        findFrom kReminderClose keylessReminder (0 + kReminderOpen.length) = some 26 ∧
        findFrom kReminderOpen keylessReminder (26 + kReminderClose.length) = none) ∧
      findFrom kReminderOpen keyedReminder 0 = some 0 ∧
        findFrom kReminderClose keyedReminder (0 + kReminderOpen.length) = some 37 ∧
        findFrom kReminderOpen keyedReminder (37 + kReminderClose.length) = none := by
    decide +kernel
  rw [reminderFrames_one hopen hclose hend, reminderFrames_one hopen' hclose' hend']
  decide +kernel

section Twice

variable {r : Bytes} {n : ℕ} {keys : List Bytes}

/-- The policy of a result that is a reminder. -/
theorem messagePolicies_one (prompt : Bytes) (order : ℕ) (span : HarnessRenderedMessageSpan)
    (hframes : reminderFrames r = [⟨0, n, true, false, keys⟩]) (hcontent : contentOf prompt span = r)
    (hvalid : validContentBounds prompt span = true) (hrole : span.role = "tool") :
    messagePolicies prompt order span = [⟨order, span.contentBegin, span.contentBegin + n, false, keys⟩] := by
  rw [messagePolicies, hvalid, hrole, if_neg (by decide), hcontent, hframes]
  rfl

theorem policyFrames_once (hn : 0 < n) (hlength : r.length = n)
    (hframes : reminderFrames r = [⟨0, n, true, false, keys⟩]) :
    policyFrames r [⟨0, "tool", 0, n, 0, n⟩] = [⟨0, 0, n, false, keys⟩] := by
  have hfirst := messagePolicies_one r 0 ⟨0, "tool", 0, n, 0, n⟩ hframes
    (by simp [contentOf, substr, ← hlength]) (by simp [validContentBounds, validSegmentBounds, hlength, hn]) rfl
  change messagePolicies _ 0 _ ++ [] = _
  rw [hfirst, Nat.zero_add]
  rfl

theorem policyFrames_twice (hn : 0 < n) (hlength : r.length = n)
    (hframes : reminderFrames r = [⟨0, n, true, false, keys⟩]) :
    policyFrames (r ++ r) (twice n) = [⟨0, 0, n, false, keys⟩, ⟨1, n, n + n, false, keys⟩] := by
  have hfirst := messagePolicies_one (r ++ r) 0 ⟨0, "tool", 0, n, 0, n⟩ hframes
    (by simp [contentOf, substr, ← hlength]) (by simp [validContentBounds, validSegmentBounds, hlength, hn]) rfl
  have hsecond := messagePolicies_one (r ++ r) 1 ⟨1, "tool", n, n + n, n, n + n⟩ hframes
    (by simp [contentOf, substr, ← hlength]) (by simp [validContentBounds, validSegmentBounds, hlength, hn]) rfl
  change messagePolicies _ 0 _ ++ (messagePolicies _ 1 _ ++ []) = _
  rw [hfirst, hsecond, Nat.zero_add]
  rfl

end Twice

/-- A reminder that names a file is pinned once, and its copy pins no more. -/
theorem policies_oneCopy_keyed :
    OneCopyEach (keyedReminder ++ keyedReminder) (twice 55)
        (deriveHarnessSemanticPlan .openCode (keyedReminder ++ keyedReminder) (twice 55) 0) ∧
      (deriveHarnessSemanticPlan .openCode (keyedReminder ++ keyedReminder) (twice 55) 0).projectPolicyFrameCount ≤
        (deriveHarnessSemanticPlan .openCode keyedReminder [⟨0, "tool", 0, 55, 0, 55⟩] 0).projectPolicyFrameCount := by
  obtain ⟨-, hframes, -, hlength⟩ := reminderFrames_samples
  have honce := policyFrames_once (by decide) hlength hframes
  have htwice := policyFrames_twice (by decide) hlength hframes
  have hkeyed : KeylessOnce (keyedReminder ++ keyedReminder) (twice 55) := by
    intro i f hf hkeys
    rw [htwice] at hf
    have hmem := List.mem_of_getElem? hf
    simp only [List.mem_cons, List.not_mem_nil, or_false] at hmem
    rcases hmem with rfl | rfl
    · cases hkeys
    · cases hkeys
  have hcopies : Copies keyedReminder (keyedReminder ++ keyedReminder) [⟨0, "tool", 0, 55, 0, 55⟩]
      [⟨1, "tool", 55, 110, 55, 110⟩] := by
    intro f hf horder
    change f ∈ policyFrames _ (twice 55) at hf
    rw [htwice] at hf
    rw [honce]
    refine ⟨(⟨0, 0, 55, false, [[0x61]]⟩, 0), List.mem_singleton.mpr rfl, ?_⟩
    simp only [List.mem_cons, List.not_mem_nil, or_false] at hf
    rcases hf with rfl | rfl
    · exact absurd horder (by decide)
    · simp [frameBytes, substr, ← hlength]
  have hin : InPrompt keyedReminder [⟨0, "tool", 0, 55, 0, 55⟩] := by
    intro span hspan
    rw [List.mem_singleton.mp hspan, hlength]
    exact ⟨le_rfl, le_rfl⟩
  refine ⟨(policies_oneCopy (by decide) _ _ _).1.mpr hkeyed, ?_⟩
  exact (policies_oneCopy (by decide) keyedReminder [⟨0, "tool", 0, 55, 0, 55⟩] 0).2 _ [⟨1, "tool", 55, 110, 55, 110⟩] 0
    (List.prefix_append _ _) hin hcopies hkeyed

/-- Of a policy that names no key every copy is pinned. -/
theorem policies_keyless_twice :
    ¬ OneCopyEach (keylessReminder ++ keylessReminder) keylessMessages
      (deriveHarnessSemanticPlan .openCode (keylessReminder ++ keylessReminder) keylessMessages 0) := by
  intro h
  obtain ⟨hreminder, -, hlength, -⟩ := reminderFrames_samples
  have hframes : policyFrames (keylessReminder ++ keylessReminder) keylessMessages =
      [⟨0, 0, 44, false, []⟩, ⟨1, 44, 88, false, []⟩] :=
    policyFrames_twice (by decide) hlength hreminder
  have hrelevant : Relevant [⟨0, 0, 44, false, []⟩, ⟨1, 44, 88, false, []⟩] 0 := by
    rintro (_ | _ | b) ⟨f, hf, -, hbaseline, -⟩
    · exact le_rfl
    · cases hf
      cases hbaseline
    · cases hf
  have honce := keylessOnce_of_oneCopyEach (by decide) h 0 ⟨0, 0, 44, false, []⟩ (by rw [hframes]; rfl) rfl rfl
    (by rwa [hframes]) 1 ⟨1, 44, 88, false, []⟩ (by rw [hframes]; rfl) Nat.zero_lt_one
  refine honce ?_
  simp only [frameBytes, substr, ← hlength, List.drop_left, List.drop_zero, Nat.sub_zero, List.take_left]
  exact List.take_of_length_le (by omega)

end Qw3.Harness
