import Qw3.RawK.Accounting

/-!
# Growth of the raw keys within the budget

* `Meets` — what a call does when it returns, that it keeps the accounts when it
  throws, and that no loop of it runs out of rounds.
* `evictRound_meets` — a round of the eviction loop gives something up or finds room:
  an empty slab, a redundant copy, a chunk, a retired entry or the least recently
  used block.
* `kvmemEvictCpuForRawIn_meets`, `kvmemEnsureRawKChunks_meets` — the calls that make
  room, and the one that needs it.
* `sparseCpuBudget` — every run.
-/

namespace Qw3.RawK

section Rules

/-! ## What a call does -/

variable {ω α β : Type} {c : Config} {o : Outside ω} {gone : Bool → ℕ → Prop} {P P' : State → Prop} {Q Q' : α → State → Prop}
  {x : Program (State × ω) Halt α}

/-- From `P` a call returns with `Q`, or throws and leaves the accounts in order; no
loop of it runs out of rounds. -/
def Meets (c : Config) (gone : Bool → ℕ → Prop) (P : State → Prop) (x : Program (State × ω) Halt α) (Q : α → State → Prop) : Prop :=
  Program.Triple (fun p => P p.1) x (fun a p => Q a p.1) fun e p => e ≠ .outOfFuel ∧ Spared c gone p.1

theorem Meets.conseq (h : Meets c gone P x Q) (hP : ∀ s, P' s → P s) (hQ : ∀ a s, Q a s → Q' a s) :
    Meets c gone P' x Q' :=
  Program.Triple.conseq h (fun p hp => hP p.1 hp) (fun a p hq => hQ a p.1 hq) fun _ _ he => he

/-- Chunks that nobody asks about may be any. -/
theorem Meets.mono (gone : Bool → ℕ → Prop) {gone' : Bool → ℕ → Prop} (h : Meets c gone P x Q)
    (hgone : ∀ mtp k, gone' mtp k → gone mtp k) : Meets c gone' P x Q :=
  Program.Triple.conseq h (fun _ hp => hp) (fun _ _ hq => hq) fun _ _ he =>
    ⟨he.1, he.2.kept, fun mtp k hk => he.2.absent mtp k (hgone mtp k hk)⟩

theorem Meets.pure {a : α} (h : ∀ s, P s → Q a s) : Meets c gone P (pure a : Program (State × ω) Halt α) Q :=
  Program.Triple.pure fun p hp => h p.1 hp

theorem Meets.throw {what : String} (h : ∀ s, P s → Spared c gone s) :
    Meets c gone P (throw (.error what) : Program (State × ω) Halt α) Q :=
  Program.Triple.throw fun p hp => ⟨nofun, h p.1 hp⟩

theorem Meets.bind {f : α → Program (State × ω) Halt β} {R : β → State → Prop} (hx : Meets c gone P x Q)
    (hf : ∀ a, Meets c gone (Q a) (f a) R) : Meets c gone P (x >>= f) R :=
  Program.Triple.bind hx hf

/-- What is read first is read of some state. -/
theorem Meets.get {f : State × ω → Program (State × ω) Halt β} {R : β → State → Prop}
    (h : ∀ s w, P s → Meets c gone (fun t => t = s) (f (s, w)) R) : Meets c gone P (MonadState.get >>= f) R := by
  refine Program.Triple.bind_get ?_
  rintro ⟨s, w⟩ hs
  refine Program.Triple.pre (h s w hs) ?_
  rintro _ rfl
  rfl

theorem Meets.modify {f : State × ω → State} {Q : Unit → State → Prop} (h : ∀ p, P p.1 → Q () (f p)) :
    Meets c gone P (modify fun p => (f p, p.2)) Q :=
  Program.Triple.modify h

theorem Meets.outside (call : Call ω α) (hP : ∀ s, P s → Spared c gone s) :
    Meets c gone P (outside call) fun _ => P := by
  intro p hp
  unfold Program.exec RawK.outside
  cases (call p.1 p.2).1 with
  | ok a => exact hp
  | error e => exact ⟨nofun, hP _ hp⟩

/-! ## Eviction of a chunk -/

variable {s : State}

theorem takesChunk_resident {w : ω} {mtp protectMtp : Bool}
    {protectFirst protectLast activeChunk pass chunk : ℕ}
    (h : takesChunk o s w mtp protectMtp protectFirst protectLast activeChunk pass chunk = true) :
    (s.mirror mtp).chunks[chunk]? = some true := by
  unfold takesChunk at h
  simp only [Bool.and_eq_true] at h
  exact getD_eq_true.mp h.1.1.1.1.1

theorem victimChunk_resident {w : ω} {mtp protectMtp : Bool}
    {protectFirst protectLast activeChunk victim : ℕ}
    (h : victimChunk o s w mtp protectMtp protectFirst protectLast activeChunk = some victim) :
    (s.mirror mtp).chunks[victim]? = some true := by
  obtain ⟨pass, -, hfind⟩ := List.exists_of_findSome?_eq_some h
  exact takesChunk_resident (List.find?_some hfind)

theorem evictFrom_meets (mtp protectMtp : Bool) (protectFirst protectLast activeChunk k : ℕ) :
    Meets c gone (fun s => Spared c gone s ∧ s.evictable = k)
      (evictFrom c o mtp protectMtp protectFirst protectLast activeChunk)
      fun again s => Spared c gone s ∧ if again then s.evictable < k else s.evictable = k := by
  unfold evictFrom
  refine .get ?_
  rintro s w ⟨hs, hk⟩
  dsimp only
  split
  · refine .pure ?_
    rintro _ rfl
    exact ⟨hs, hk⟩
  · split
    · refine .pure ?_
      rintro _ rfl
      exact ⟨hs, hk⟩
    · next victim hv =>
      have hres := victimChunk_resident hv
      have hfree : Meets c gone (fun t => t = s)
          (do
            modify fun p => (p.1.resetChunk mtp victim (c.rawKChunkBytes mtp), p.2)
            Pure.pure true : Program (State × ω) Halt Bool)
          fun again t => Spared c gone t ∧ if again then t.evictable < k else t.evictable = k := by
        refine .bind (.modify (Q := fun _ t => t = s.resetChunk mtp victim (c.rawKChunkBytes mtp)) ?_) ?_
        · intro p hp
          rw [hp]
        · intro _
          refine .pure ?_
          rintro _ rfl
          rw [hs.kept.rawKChunkBytes_eq hres]
          exact ⟨hs.resetChunk hres, hk ▸ evictable_resetChunk hres⟩
      split
      · refine .bind (.outside _ ?_) fun _ => hfree
        rintro _ rfl
        exact hs
      · exact hfree

theorem kvmemEvictOneRawKChunk_meets (protectMtp : Bool) (protectFirst protectLast k : ℕ) :
    Meets c gone (fun s => Spared c gone s ∧ s.evictable = k)
      (kvmemEvictOneRawKChunk c o protectMtp protectFirst protectLast)
      fun again s => Spared c gone s ∧ if again then s.evictable < k else s.evictable = k := by
  unfold kvmemEvictOneRawKChunk
  split
  · exact .pure fun s hs => hs
  · refine .get fun s w hs => ?_
    refine .bind ((evictFrom_meets false protectMtp protectFirst protectLast _ k).conseq ?_ fun _ _ h => h) ?_
    · rintro _ rfl
      exact hs
    · intro again
      cases again with
      | true => exact .pure fun s hs => hs
      | false => exact evictFrom_meets true protectMtp protectFirst protectLast _ k

/-! ## A round of the eviction loop -/

theorem emptySlab_spec {i : ℕ} {slab : Slab} (h : s.emptySlab = some (i, slab)) :
    s.slabs[i]? = some slab ∧ slab.data = true ∧ slab.liveSlots = 0 := by
  unfold State.emptySlab at h
  obtain ⟨⟨a, j⟩, hfind, heq⟩ := Option.map_eq_some_iff.mp h
  obtain ⟨rfl, rfl⟩ := Prod.mk.inj heq
  have hmem := List.mem_reverse.mp (List.mem_of_find?_eq_some hfind)
  have hempty := List.find?_some hfind
  rw [Bool.and_eq_true, beq_iff_eq] at hempty
  exact ⟨List.mk_mem_zipIdx_iff_getElem?.mp hmem, hempty.2, hempty.1⟩

theorem owner_of_blockSlot {b : ℕ} (h : 0 ≤ s.blockSlot b) : s.tier.pool.owner b ≠ none := by
  intro hnone
  unfold State.blockSlot at h
  rw [hnone] at h
  exact absurd h (by decide)

theorem redundantCopy_owner {w : ω} {b : ℕ} {slot : ℤ}
    (h : redundantCopy o s w = some (b, slot)) : s.tier.pool.owner b ≠ none := by
  unfold redundantCopy at h
  obtain ⟨block, hfind, heq⟩ := Option.map_eq_some_iff.mp h
  obtain ⟨rfl, rfl⟩ := Prod.mk.inj heq
  have hres := List.find?_some hfind
  rw [Bool.and_eq_true, decide_eq_true_iff] at hres
  exact owner_of_blockSlot hres.1

theorem Kept.lruVictim_owner (h : Kept c s) {victim : ℕ} (hv : s.lruVictim = some victim) :
    s.tier.pool.owner victim ≠ none := by
  unfold State.lruVictim at hv
  split at hv
  · cases hv
  · next v rest hrecent =>
      split_ifs at hv
      obtain rfl := Option.some.inj hv
      obtain ⟨slot, hslot⟩ := h.recency.head_owner hrecent
      rw [hslot]
      exact Option.some_ne_none slot

/-- A block of the tier leaves it with its slot. -/
theorem leaveCpuTier_meets {b : ℕ} (hs : Spared c gone s) (hb : s.tier.pool.owner b ≠ none) (slot : ℤ) :
    Meets c gone (fun t => t = s) (leaveCpuTier c o b slot) fun _ t => Spared c gone t ∧ t.evictable < s.evictable := by
  refine .bind (.modify (Q := fun _ t => t = s.releaseBlock b) ?_) fun _ => .modify ?_
  · intro p hp
    rw [hp]
  · rintro ⟨t, w⟩ ht
    change t = _ at ht
    subst ht
    exact ⟨(hs.releaseBlock b).releaseCpuSlot _ slot,
      (evictable_releaseCpuSlot_le c _ slot).trans_lt (hs.kept.evictable_releaseBlock hb)⟩

theorem writeVictim_meets (hs : Spared c gone s) (victim : ℕ) (block : Block) :
    Meets c gone (fun t => t = s) (writeVictim c o victim block) fun _ t => t = s := by
  have hsame : ∀ t, t = s → Spared c gone t := fun t ht => ht ▸ hs
  unfold writeVictim
  refine .get fun t w ht => ?_
  subst ht
  dsimp only
  split
  · exact .pure fun _ h => h
  · refine .bind (.outside _ hsame) fun _ => .get fun u w hu => ?_
    subst hu
    dsimp only
    split
    · exact .outside _ hsame
    · exact .pure fun _ h => h

/-- The block's entry is none of the accounts. -/
theorem retierVictim_meets (hP : ∀ s, P s → Spared c gone s) (victim : ℕ) (block : Block) :
    Meets c gone P (retierVictim c o victim block) fun _ => P := by
  unfold retierVictim
  refine .get fun s w hs => ?_
  have hsame : ∀ t, t = s → Spared c gone t := fun t ht => ht ▸ hP s hs
  have hback : ∀ (_ : Unit) t, t = s → P t := fun _ t ht => ht ▸ hs
  refine Meets.conseq (Q := fun _ t => t = s) ?_ (fun _ h => h) hback
  dsimp only
  split
  · refine .bind (.outside _ hsame) fun _ => .get fun u w hu => ?_
    subst hu
    dsimp only
    split
    · exact .pure fun _ h => h
    · exact .outside _ hsame
  · exact .outside _ hsame

theorem spillVictim_meets {victim : ℕ} (hs : Spared c gone s) (hv : s.tier.pool.owner victim ≠ none) :
    Meets c gone (fun t => t = s) (spillVictim c o victim) fun _ t => Spared c gone t ∧ t.evictable < s.evictable := by
  have hsame : ∀ t, t = s → Spared c gone t := fun t ht => ht ▸ hs
  unfold spillVictim
  refine .get fun t w ht => ?_
  subst ht
  refine .bind (.outside _ hsame) fun lease => .get fun u w hu => ?_
  subst hu
  dsimp only
  split
  · exact leaveCpuTier_meets hs hv _
  · split
    · exact .throw hsame
    · next block hblock =>
        split
        · exact .throw hsame
        · refine .bind (writeVictim_meets hs victim block) fun _ => ?_
          exact .bind (leaveCpuTier_meets hs hv _) fun _ => retierVictim_meets (fun t ht => ht.1) victim block

/-- A round gives something up, or there is room. -/
theorem evictRound_meets (bytes : ℕ) (protectMtp : Bool) (protectFirst protectLast k : ℕ) :
    Meets c gone (fun s => Spared c gone s ∧ s.evictable = k)
      (evictRound c o bytes protectMtp protectFirst protectLast)
      fun again s => if again then Spared c gone s ∧ s.evictable < k else Spared c gone s ∧ c.kvmemCpuBudgetHas s bytes := by
  unfold evictRound
  refine .get ?_
  rintro s w ⟨hs, rfl⟩
  have hsame : ∀ t, t = s → Spared c gone t := fun t ht => ht ▸ hs
  dsimp only
  split
  · next hroom =>
      refine .pure ?_
      rintro _ rfl
      exact ⟨hs, hroom⟩
  · split
    · next i slab hslab =>
        obtain ⟨hget, hdata, hlive⟩ := emptySlab_spec hslab
        refine .bind (.modify (Q := fun _ t => t = s.resetSlab c i slab) ?_) fun _ => .pure ?_
        · intro p hp
          rw [hp]
        · rintro _ rfl
          refine ⟨hs.of_mirror ?_ rfl, evictable_resetSlab hget hdata⟩
          exact ⟨hs.kept.accounted.resetSlab hget hdata hlive, hs.kept.recency, hs.kept.chunks_length⟩
    · split
      · next copy redundant slot hcopy =>
          have howner : s.tier.pool.owner redundant ≠ none := by
            obtain ⟨hcopy, -⟩ := Option.filter_eq_some_iff.mp hcopy
            split_ifs at hcopy
            exact redundantCopy_owner hcopy
          refine .bind (leaveCpuTier_meets hs howner slot) fun _ => ?_
          exact .bind (.outside _ fun t ht => ht.1) fun _ => .pure fun t ht => ht
      · split
        · refine .bind ((kvmemEvictOneRawKChunk_meets protectMtp protectFirst protectLast s.evictable).conseq
            ?_ fun _ _ h => h) fun again => ?_
          · rintro _ rfl
            exact ⟨hs, rfl⟩
          · cases again with
            | true => exact .pure fun t ht => ht
            | false => exact .throw fun t ht => ht.1
        · next victim hvictim =>
            split_ifs at hvictim
            refine .bind (spillVictim_meets hs (hs.kept.lruVictim_owner hvictim)) fun _ => ?_
            exact .pure fun t ht => ht

/-! ## The calls -/

theorem kvmemReserveCpuSlot_meets (slot : ℤ) :
    Meets c gone (Spared c gone) (kvmemReserveCpuSlot c o slot) fun _ => Spared c gone := by
  unfold kvmemReserveCpuSlot
  refine .get fun s w hs => ?_
  have hsame : ∀ t, t = s → Spared c gone t := fun t ht => ht ▸ hs
  cases slot with
  | negSucc _ => exact .pure hsame
  | ofNat i =>
      dsimp only
      split
      · exact .pure hsame
      · next hfits =>
          split
          · exact .pure hsame
          · next hfree =>
              simp only [Bool.or_eq_true, not_or, decide_eq_true_iff, Nat.not_le] at hfits
              have hget : s.slotLive[i]? = some false :=
                (getD_eq_false hfits.1.2).mp (Bool.eq_false_of_not_eq_true hfree)
              split
              · exact .pure hsame
              · next slab hslab =>
                  split
                  · next hdata =>
                      refine .bind (.modify (Q := fun _ => Spared c gone) ?_) fun _ => .pure fun _ h => h
                      rintro ⟨t, v⟩ ht
                      change t = s at ht
                      subst ht
                      have hslabs := hs.kept.accounted.takeSlot hget hslab hdata
                      exact hs.of_mirror ⟨hslabs, hs.kept.recency, hs.kept.chunks_length⟩ rfl
                  · next hdata =>
                      split
                      · exact .pure hsame
                      · next hroom =>
                          simp only [Bool.or_eq_true, not_or, Bool.not_eq_true', Bool.not_eq_false] at hroom
                          refine .bind (.outside _ hsame) fun _ => ?_
                          refine .bind (.modify (Q := fun _ => Spared c gone) ?_) fun _ => .pure fun _ h => h
                          rintro ⟨t, v⟩ ht
                          change t = s at ht
                          subst ht
                          have hslabs := (hs.kept.accounted.allocateSlab hslab
                            (Bool.eq_false_of_not_eq_true hdata) hroom.2).takeSlot hget (lookup_set_self hslab) rfl
                          exact hs.of_mirror ⟨hslabs, hs.kept.recency, hs.kept.chunks_length⟩ rfl

theorem kvmemReleaseCpuSlot_meets (slot : ℤ) :
    Meets c gone (Spared c gone) (kvmemReleaseCpuSlot c o slot) fun _ => Spared c gone :=
  .modify fun p hp => hp.releaseCpuSlot (o.hasRepository p.2) slot

/-- However a call ends, it keeps the accounts. -/
theorem Meets.spared (h : Meets c gone P x Q) (hQ : ∀ a s, Q a s → Spared c gone s) {p : State × ω} (hp : P p.1) :
    Spared c gone (x.exec p).2.1 := by
  have hx := h p hp
  revert hx
  cases x.exec p with
  | mk r t =>
      cases r with
      | ok a => exact hQ a t.1
      | error e => exact And.right

theorem Meets.kept (h : Meets c (fun _ _ => False) P x Q) (hQ : ∀ a s, Q a s → Spared c (fun _ _ => False) s)
    {p : State × ω} (hp : P p.1) : Kept c (x.exec p).2.1 :=
  (h.spared hQ hp).kept

theorem Transfer.perform_spared (t : Transfer) {p : State × ω} (h : Spared c gone p.1) :
    Spared c gone (t.perform c o p).1 := by
  cases t with
  | tier call => exact h.of_mirror (h.kept.tierCall call) rfl
  | reserve slot => exact (kvmemReserveCpuSlot_meets slot).spared (fun _ _ h => h) h
  | release slot => exact (kvmemReleaseCpuSlot_meets slot).spared (fun _ _ h => h) h

/-- Transfers keep the accounts, also where they end with an exception. -/
theorem transfers_meets (call : State → ω → List Transfer × Except String Unit × ω) :
    Meets c gone (Spared c gone) (transfers c o call) fun _ => Spared c gone := by
  intro p hp
  have hkept : ∀ (ts : List Transfer) (q : State × ω), Spared c gone q.1 →
      Spared c gone (ts.foldl (fun p t => t.perform c o p) q).1 := by
    intro ts
    induction ts with
    | nil => exact fun q hq => hq
    | cons t ts ih => exact fun q hq => ih _ (t.perform_spared hq)
  unfold Program.exec transfers
  dsimp only
  cases (call p.1 p.2).2.1 with
  | ok a => exact hkept _ p hp
  | error e => exact ⟨nofun, hkept _ p hp⟩

theorem kvmemEvictCpuForRawIn_meets {fuel : State → ℕ} (hfuel : ∀ s, s.evictable < fuel s) (bytes : ℕ)
    (protectMtp : Bool) (protectFirst protectLast : ℕ) :
    Meets c gone (Spared c gone) (kvmemEvictCpuForRawIn c o fuel bytes protectMtp protectFirst protectLast)
      fun _ s => Spared c gone s ∧ c.kvmemCpuBudgetHas s bytes := by
  unfold kvmemEvictCpuForRawIn
  refine .get fun s w hs => ?_
  have hsame : ∀ t, t = s → Spared c gone t := fun t ht => ht ▸ hs
  dsimp only
  split
  · next hroom =>
      refine .pure ?_
      rintro _ rfl
      exact ⟨hs, hroom⟩
  · split
    · exact .throw hsame
    · refine .bind ((transfers_meets o.finishProactiveD2h).pre fun p hp => hsame p.1 hp) fun _ => ?_
      refine .bind (transfers_meets o.reapPendingWrites) fun _ => .get fun s w hs => ?_
      refine Program.Triple.pre (Program.Triple.loop (evictRound_meets bytes protectMtp protectFirst protectLast)
        _ (fuel s)) ?_
      rintro ⟨t, w⟩ ht
      change t = s at ht
      subst ht
      exact ⟨hs, hfuel t⟩

theorem kvmemEvictCpuForRaw_meets (bytes : ℕ) (protectMtp : Bool) (protectFirst protectLast : ℕ) :
    Meets c gone (Spared c gone) (kvmemEvictCpuForRaw c o bytes protectMtp protectFirst protectLast)
      fun _ s => Spared c gone s ∧ c.kvmemCpuBudgetHas s bytes :=
  kvmemEvictCpuForRawIn_meets (fun _ => Nat.lt_succ_self _) bytes protectMtp protectFirst protectLast

theorem dropRound_meets (mtp : Bool) (first last k : ℕ) :
    Meets c gone (fun s => Spared c gone s ∧ s.evictable = k) (dropRound c o mtp first last)
      fun again s => if again then Spared c gone s ∧ s.evictable < k else Spared c gone s := by
  unfold dropRound
  refine .get fun s w hs => ?_
  dsimp only
  split
  · refine .pure ?_
    rintro _ rfl
    exact hs.1
  · refine (kvmemEvictOneRawKChunk_meets mtp first last k).conseq ?_ ?_
    · rintro _ rfl
      exact hs
    · intro again t ht
      cases again with
      | true => exact ht
      | false => exact ht.1

theorem dropChunks_meets (mtp : Bool) (first last : ℕ) :
    Meets c gone (Spared c gone) (dropChunks c o mtp first last) fun _ => Spared c gone := by
  unfold dropChunks
  refine .get fun s w hs => ?_
  refine Program.Triple.pre (Program.Triple.loop (dropRound_meets mtp first last) _ (s.evictable + 1)) ?_
  rintro ⟨t, v⟩ ht
  change t = s at ht
  subst ht
  exact ⟨hs, Nat.lt_succ_self _⟩

theorem readBlock_meets (hP : ∀ s, P s → Spared c gone s) (mtp : Bool) (chunk b : ℕ) :
    Meets c gone P (readBlock c o mtp chunk b) fun _ => P := by
  unfold readBlock
  refine .get fun s w hs => ?_
  have hsame : ∀ t, t = s → Spared c gone t := fun t ht => ht ▸ hP s hs
  refine Meets.conseq (Q := fun _ t => t = s) ?_ (fun _ h => h) fun _ t ht => ht ▸ hs
  dsimp only
  split
  · exact .pure fun _ h => h
  · split
    · exact .pure fun _ h => h
    · split
      · exact .pure fun _ h => h
      · split
        · exact .throw hsame
        · exact .outside _ hsame

theorem readBlocks_meets (hP : ∀ s, P s → Spared c gone s) (mtp : Bool) (chunk : ℕ) (bs : List ℕ) :
    Meets c gone P (bs.forM (readBlock c o mtp chunk)) fun _ => P :=
  Program.Triple.forM bs fun b _ => readBlock_meets hP mtp chunk b

/-- What is read into a new chunk is none of the accounts. -/
theorem readBacking_meets (hP : ∀ s, P s → Spared c gone s) (mtp : Bool) (chunk : ℕ) :
    Meets c gone P (readBacking c o mtp chunk) fun _ => P := by
  unfold readBacking
  refine .get fun s w hs => ?_
  have hsame : ∀ t, t = s → Spared c gone t := fun t ht => ht ▸ hP s hs
  refine Meets.conseq (Q := fun _ t => t = s) ?_ (fun _ h => h) fun _ t ht => ht ▸ hs
  dsimp only
  split
  · exact .pure fun _ h => h
  · split
    · split
      · exact .bind (.outside _ hsame) fun _ => readBlocks_meets hsame mtp chunk _
      · exact readBlocks_meets hsame mtp chunk _
    · split
      · exact .throw hsame
      · exact .outside _ hsame

theorem whenShort_meets {y : Program (State × ω) Halt Unit} (mtp : Bool)
    (h : Meets c gone (Spared c gone) y fun _ => Spared c gone) :
    Meets c gone (Spared c gone) (whenShort c mtp y) fun _ => Spared c gone := by
  unfold whenShort
  refine .get fun s w hs => ?_
  have hsame : ∀ t, t = s → Spared c gone t := fun t ht => ht ▸ hs
  dsimp only
  split
  · exact h.conseq hsame fun _ _ h => h
  · exact .pure hsame

/-- A chunk is allocated where the budget has room for it, at the latest after the
eviction loop. -/
theorem ensureChunk_meets (mtp : Bool) (first last : ℕ) {chunk : ℕ} (hchunk : chunk < c.chunkCount mtp) :
    Meets c (fun _ _ => False) (Spared c fun _ _ => False) (ensureChunk c o mtp first last chunk)
      fun _ => Spared c fun _ _ => False := by
  unfold ensureChunk
  refine .get fun s w hs => ?_
  dsimp only
  split
  · refine .pure ?_
    rintro _ rfl
    exact hs
  · next hfree =>
      -- Nothing on the way to the allocation allocates the chunk.
      have hspared : Spared c (fun m k => m = mtp ∧ k = chunk) s := by
        refine ⟨hs.kept, ?_⟩
        rintro _ _ ⟨rfl, rfl⟩ hk
        exact hfree (getD_eq_true.mpr hk)
      have hsame : ∀ t, t = s → Spared c (fun m k => m = mtp ∧ k = chunk) t := fun t ht => ht ▸ hspared
      refine Meets.mono (fun m k => m = mtp ∧ k = chunk) ?_ nofun
      refine .bind ((whenShort_meets mtp (dropChunks_meets mtp first last)).conseq hsame fun _ _ h => h) fun _ => ?_
      refine .bind (whenShort_meets mtp (.outside _ fun _ h => h)) fun _ => ?_
      refine .bind (kvmemEvictCpuForRaw_meets _ mtp first last) fun _ => .get fun t v ht => ?_
      have hnow : ∀ u, u = t → Spared c (fun m k => m = mtp ∧ k = chunk) u := fun u hu => hu ▸ ht.1
      dsimp only
      split
      · exact .throw hnow
      · refine .bind (.outside _ hnow) fun _ => ?_
        refine .bind (readBacking_meets hnow mtp chunk) fun _ => .modify ?_
        rintro ⟨u, v⟩ hu
        change u = t at hu
        subst hu
        have hlt : chunk < (u.mirror mtp).chunks.length := ht.1.kept.chunks_length mtp ▸ hchunk
        have hget : (u.mirror mtp).chunks[chunk]? = some false := by
          refine (getD_eq_false hlt).mp (Bool.eq_false_of_not_eq_true fun hk => ?_)
          exact ht.1.absent mtp chunk ⟨rfl, rfl⟩ (getD_eq_true.mp hk)
        exact (ht.1.kept.allocateChunk hget ht.2).spared

theorem kvmemEnsureRawKChunks_meets (base rows : ℕ) (mtp : Bool) :
    Meets c (fun _ _ => False) (Spared c fun _ _ => False) (kvmemEnsureRawKChunks c o base rows mtp)
      fun _ => Spared c fun _ _ => False := by
  unfold kvmemEnsureRawKChunks
  refine .get fun s w hs => ?_
  have hsame : ∀ t, t = s → Spared c (fun _ _ => False) t := fun t ht => ht ▸ hs
  dsimp only
  split
  · exact .pure hsame
  · split
    · exact .throw hsame
    · split
      · exact .throw hsame
      · next hlast =>
          have hloop : ∀ chunk ∈ List.range' (base / c.chunkTokens)
              ((base + rows - 1) / c.chunkTokens + 1 - base / c.chunkTokens), chunk < c.chunkCount mtp := by
            intro chunk hchunk
            rw [← hs.kept.chunks_length mtp]
            have hlt := (List.mem_range'_1.mp hchunk)
            omega
          refine Meets.conseq (P := Spared c fun _ _ => False) ?_ hsame fun _ _ h => h
          exact Program.Triple.forM _ fun chunk hchunk => ensureChunk_meets mtp _ _ (hloop chunk hchunk)

/-! ## The runs -/

/-- Every step keeps the accounts. -/
theorem step_kept (a : Action ω) {p : State × ω} (h : Kept c p.1) : Kept c (step c o p a).1 := by
  cases a with
  | reserveCpuSlot slot => exact (kvmemReserveCpuSlot_meets slot).kept (fun _ _ h => h) h.spared
  | releaseCpuSlot slot => exact (kvmemReleaseCpuSlot_meets slot).kept (fun _ _ h => h) h.spared
  | ensureRawKChunks base rows mtp =>
      exact (kvmemEnsureRawKChunks_meets base rows mtp).kept (fun _ _ h => h) h.spared
  | evictOneRawKChunk protectMtp protectFirst protectLast =>
      exact (kvmemEvictOneRawKChunk_meets protectMtp protectFirst protectLast p.1.evictable).kept
        (fun _ _ h => h.1) ⟨h.spared, rfl⟩
  | evictCpuForRaw bytes protectMtp protectFirst protectLast =>
      exact (kvmemEvictCpuForRaw_meets bytes protectMtp protectFirst protectLast).kept (fun _ _ h => h.1) h.spared
  | tier call => exact h.tierCall call
  | truncateRawK tokenPos => exact h.truncate tokenPos
  | reset retain => exact h.reset retain
  | outside w => exact h

theorem kept_invariant (c : Config) (o : Outside ω) : (machine c o).Invariant fun p => Kept c p.1 where
  init p hp := by
    change p.1 = c.initial at hp
    rw [hp]
    exact .initial c
  step p a q hp hq := by
    obtain rfl : step c o p a = q := Option.some.inj hq
    exact step_kept a hp

end Rules

/-- **The budget's accounts.**  In every run each counter is the sum of what it
counts and together they stay within the budget.  From every state of a run the
eviction loop, whatever more rounds than there is to give up it may take, ends: with
room for what was asked for, or with an exception of the source; and so does
`kvmem_ensure_raw_k_chunks`. -/
theorem sparseCpuBudget {ω : Type} (c : Config) (o : Outside ω) (p : State × ω)
    (hp : (machine c o).Reachable p) :
    Accounted c p.1 ∧
    (∀ fuel : State → ℕ, (∀ s, s.evictable < fuel s) → ∀ bytes protectMtp protectFirst protectLast,
      match (kvmemEvictCpuForRawIn c o fuel bytes protectMtp protectFirst protectLast).exec p with
      | (.ok (), q) => c.kvmemCpuBudgetHas q.1 bytes = true
      | (.error e, _) => e ≠ .outOfFuel) ∧
    ∀ base rows mtp, ((kvmemEnsureRawKChunks c o base rows mtp).exec p).1 ≠ .error .outOfFuel := by
  have hkept := (kept_invariant c o).reachable hp
  refine ⟨hkept.accounted, ?_, ?_⟩
  · intro fuel hfuel bytes protectMtp protectFirst protectLast
    have hcall := kvmemEvictCpuForRawIn_meets (o := o) hfuel bytes protectMtp protectFirst protectLast p hkept.spared
    revert hcall
    cases (kvmemEvictCpuForRawIn c o fuel bytes protectMtp protectFirst protectLast).exec p with
    | mk r q =>
        cases r with
        | ok _ => exact And.right
        | error e => exact And.left
  · intro base rows mtp
    have hcall := kvmemEnsureRawKChunks_meets (o := o) base rows mtp p hkept.spared
    revert hcall
    cases (kvmemEnsureRawKChunks c o base rows mtp).exec p with
    | mk r q =>
        cases r with
        | ok _ => exact fun _ => nofun
        | error e => exact fun hcall he => hcall.1 (Except.error.inj he)

/-- Ten slots of 10 bytes, two to a slab, and chunks of 40 bytes. -/
def sampleConfig : Config where
  blockStore := true
  budgetBytes := 100
  slotBytes := 10
  ioSlabBytes := 20
  nvmeTier := false
  inclusiveCpuBacking := false
  optimizeStageOut := false
  blockTokens := 2
  kvCtxSize := 16
  rawLayers := 2
  mtpLocalPositions := true
  chunkTokens := 4
  rowBytes := 5
  rawKNvme := false
  rawKNvmeBlockSlots := false

/-- No block, nothing on file and no call that throws. -/
def sampleOutside : Outside Unit where
  hasRepository _ := false
  blocks _ := []
  blockPagesResident _ _ := false
  nvmeBlockSlot _ _ := -1
  tables _ _ := ⟨[], [], [], [], []⟩
  writebackChunkSlot _ := []
  position _ := 0
  rawKBlockSlot _ _ := -1
  repositoryRawSpan _ _ _ := false
  collected _ _ := false
  allocate _ _ w := (.ok (), w)
  finishProactiveD2h _ w := ([.release 0], .ok (), w)
  reapPendingWrites _ w := ([], .ok (), w)
  flushRawKWrites _ w := (.ok (), w)
  persistRawKChunk _ _ _ w := (.ok (), w)
  repositoryRawChunkRead _ _ w := (.ok (), w)
  readSlotRange _ _ _ _ w := (.ok (), w)
  repositoryPinCurrent _ _ w := (.ok false, w)
  writeBlock _ _ w := (.ok (), w)
  setBlockSsdBacking _ _ _ w := (.ok (), w)
  setBlockCpuCopy _ _ w := (.ok (), w)
  setBlockTier _ _ _ w := (.ok (), w)

/-- A slab and a chunk.  A second chunk fits beside them; for 60 bytes the slab is
freed, whose slot a transfer that was under way gives back. -/
theorem sparseCpuBudget_sample : ∃ p, (machine sampleConfig sampleOutside).Reachable p ∧
    p.1.sparseBytes = 20 ∧ (p.1.mirror false).bytes = 40 ∧ Accounted sampleConfig p.1 ∧
    ((kvmemEnsureRawKChunks sampleConfig sampleOutside 4 4 false).exec p).2.1.sparseBytes = 20 ∧
    ((kvmemEvictCpuForRaw sampleConfig sampleOutside 60 false 0 0).exec p).2.1.sparseBytes = 0 := by
  have hreach : (machine sampleConfig sampleOutside).Reachable
      (step sampleConfig sampleOutside (step sampleConfig sampleOutside (sampleConfig.initial, ())
        (.reserveCpuSlot 0)) (.ensureRawKChunks 0 4 false)) :=
    ⟨(sampleConfig.initial, ()), [.reserveCpuSlot 0, .ensureRawKChunks 0 4 false], rfl, rfl⟩
  refine ⟨_, hreach, ?_, ?_, ?_, ?_, ?_⟩
  · rfl
  · rfl
  · exact (sparseCpuBudget sampleConfig sampleOutside _ hreach).1
  · rfl
  · rfl

end Qw3.RawK
