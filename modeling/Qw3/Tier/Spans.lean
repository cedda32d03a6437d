import Qw3.Tier.Batch

/-!
# Batched reads and writes

A batch of valid spans does what its spans do one by one, in order.  Of the other
batches the loop refuses all but those that slip through its tests.

A group is transferred by one positional call.  Its spans follow each other in the file
and in the buffer, so that call does what the calls for the spans do in a row.  No call
fails here, unless the file ends.

* `readEachSlot`, `writeEachSlot` — the spans one by one.
* `transfer_spec` — one positional call for a group.
* `runGroups_slips` — the loop goes wrong exactly at the batches of `Batch.Slips`.
* `batchedSpans` — both statements, for reads and for writes.
-/

namespace Qw3.Tier

/-- Bytes arrive in a buffer. -/
def Buffer.fill (buf : Buffer) (offset : ℕ) (data : List UInt8) : Buffer :=
  { buf with memory := buf.memory.write offset data }

namespace Arena

/-- `read_slot` for each span. -/
def readEachSlot (a : Arena) : List NvmeIoSpan → Buffer → Except IoError Unit × Buffer
  | [], buf => (.ok (), buf)
  | sp :: rest, buf =>
      match a.readSlotRange sp.slot 0 sp.bytes (buf.address + sp.bufferOffset) with
      | (.error e, data) => (.error e, buf.fill sp.bufferOffset data)
      | (.ok (), data) => readEachSlot a rest (buf.fill sp.bufferOffset data)

/-- `write_slot` for each span; `none` where one waits. -/
def writeEachSlot (buf : Buffer) : List NvmeIoSpan → Arena → Option (Except IoError Unit × Arena)
  | [], a => some (.ok (), a)
  | sp :: rest, a =>
      (a.writeSlotRange sp.slot 0 (spanData buf sp)).bind fun
        | (.error e, a) => some (.error e, a)
        | (.ok (), a) => writeEachSlot buf rest a

theorem readEachSlot_append (a : Arena) (xs ys : List NvmeIoSpan) (buf : Buffer) :
    a.readEachSlot (xs ++ ys) buf =
      match a.readEachSlot xs buf with
      | (.error e, b) => (.error e, b)
      | (.ok (), b) => a.readEachSlot ys b := by
  induction xs generalizing buf with
  | nil => rfl
  | cons sp xs ih =>
      rw [List.cons_append, readEachSlot, readEachSlot]
      split
      · rfl
      · exact ih _

theorem writeEachSlot_append (buf : Buffer) (xs ys : List NvmeIoSpan) (a : Arena) :
    writeEachSlot buf (xs ++ ys) a = (writeEachSlot buf xs a).bind fun
      | (.error e, a) => some (.error e, a)
      | (.ok (), a) => writeEachSlot buf ys a := by
  induction xs generalizing a with
  | nil => rfl
  | cons sp xs ih =>
      rw [List.cons_append, writeEachSlot, writeEachSlot, Option.bind_assoc]
      congr 1
      funext r
      obtain ⟨r, b⟩ := r
      cases r with
      | error e => rfl
      | ok u => exact ih b

/-! ## A group -/

/-- A read of a file without faults: the outcome and the bytes up to the end. -/
def readFile (f : File) (offset n : ℕ) : Except IoError Unit × List UInt8 :=
  (if min n (f.length - offset) = n then .ok () else .error .readFailed,
    f.read offset (min n (f.length - offset)))

/-- A read that goes on where the first part was in the file. -/
theorem readFile_add_of_covers {f : File} {offset m n : ℕ} (h : f.Covers offset m) :
    readFile f offset (m + n) =
      ((readFile f (offset + m) n).1, f.read offset m ++ (readFile f (offset + m) n).2) := by
  have hsum : min (m + n) (f.length - offset) = m + min n (f.length - (offset + m)) := by
    unfold File.Covers at h
    omega
  have hiff : m + min n (f.length - (offset + m)) = m + n ↔
      min n (f.length - (offset + m)) = n := by omega
  unfold readFile
  rw [hsum, File.read_add]
  simp only [hiff]

/-- A read that ends with the file. -/
theorem readFile_add_of_not_covers {f : File} {offset m : ℕ} (n : ℕ) (h : ¬ f.Covers offset m) :
    readFile f offset (m + n) = (.error .readFailed, (readFile f offset m).2) := by
  unfold File.Covers at h
  have hsum : min (m + n) (f.length - offset) = min m (f.length - offset) := by omega
  unfold readFile
  rw [hsum, if_neg (by omega)]

theorem readFile_of_covers {f : File} {offset n : ℕ} (h : f.Covers offset n) :
    readFile f offset n = (.ok (), f.read offset n) := by
  unfold File.Covers at h
  have hgot : min n (f.length - offset) = n := by omega
  unfold readFile
  rw [hgot, if_pos rfl]

theorem readFile_fst {f : File} {offset n : ℕ} :
    (readFile f offset n).1 = .ok () ↔ f.Covers offset n := by
  refine ite_eq_ok.trans ?_
  unfold File.Covers
  omega

section Group

variable {a : Arena} {buf : Buffer} {op : IoOp} {first next : NvmeIoSpan}
  {joined : List NvmeIoSpan}

theorem slotOffset_joins (haccepts : (a.batch buf op).Accepts first)
    (h : (a.batch buf op).Joins first next) :
    a.slotOffset next.slot.toNat = a.slotOffset first.slot.toNat + first.bytes := by
  obtain ⟨hslot, hbytes, -⟩ := h
  obtain ⟨⟨hnonneg, -⟩, -⟩ := haccepts
  have hnext : next.slot.toNat = first.slot.toNat + 1 := by omega
  have hbytes : first.bytes = a.slotBytes := hbytes
  rw [slotOffset, slotOffset, hnext, Nat.succ_mul, hbytes]

/-- The file that a span is read from. -/
def spanFile (a : Arena) (sp : NvmeIoSpan) : File := a.file (a.readFd sp.slot.toNat)

theorem file_spanFd (sp : NvmeIoSpan) : a.file (a.spanFd buf .read sp) = a.spanFile sp :=
  file_readFdForRange ..

theorem spanFile_joins (h : (a.batch buf .read).Joins first next) :
    a.spanFile next = a.spanFile first := by
  calc a.spanFile next
      = a.file (a.spanFd buf .read next) := (file_spanFd _).symm
    _ = a.file (a.spanFd buf .read first) := congrArg a.file h.2.2.2
    _ = a.spanFile first := file_spanFd _

/-- A group is in its file as its spans are. -/
theorem covers_iff (haccepts : (a.batch buf .read).Accepts first)
    (h : (a.batch buf .read).Joined first joined) :
    (a.spanFile first).Covers (a.slotOffset first.slot.toNat) (first.bytes + Batch.total joined) ↔
      ∀ sp ∈ first :: joined, (a.batch buf .read).stored sp = true := by
  induction joined generalizing first with
  | nil =>
      rw [List.forall_mem_singleton]
      exact decide_eq_true_iff.symm
  | cons next rest ih =>
      obtain ⟨hj, hnext, hrest⟩ := h
      have htotal : Batch.total (next :: rest) = next.bytes + Batch.total rest := rfl
      rw [List.forall_mem_cons, ← ih hnext hrest, htotal, File.covers_add,
        ← slotOffset_joins haccepts hj, spanFile_joins hj]
      exact and_congr_left fun _ => decide_eq_true_iff.symm

theorem noFaults_of_nil (hf : a.faults = []) : a.NoFaults := by
  intro f hmem
  rw [hf] at hmem
  cases hmem

theorem pwriteAll_base (hf : a.faults = []) (data : List UInt8) (offset : ℕ) :
    a.pwriteAll .base data offset = (.ok (), { a with base := a.base.write offset data }) := by
  unfold pwriteAll
  dsimp only
  rw [(noFaults_of_nil hf).limit_eq, if_pos rfl, List.take_length, hf, List.tail_nil, ← hf]
  rfl

theorem transfer_write (hf : a.faults = []) (n : ℕ) :
    a.transfer buf .write first n =
      (.ok (),
        { a with
          base := a.base.write (a.slotOffset first.slot.toNat)
            (buf.memory.read first.bufferOffset n) },
        buf) := by
  unfold transfer
  dsimp only
  rw [pwriteAll_base hf]

theorem transfer_read (hf : a.faults = []) (n : ℕ) :
    a.transfer buf .read first n =
      ((readFile (a.spanFile first) (a.slotOffset first.slot.toNat) n).1, a,
        buf.fill first.bufferOffset
          (readFile (a.spanFile first) (a.slotOffset first.slot.toNat) n).2) := by
  unfold transfer preadAll
  dsimp only
  rw [(noFaults_of_nil hf).limit_eq, file_spanFd, hf, List.tail_nil, ← hf]
  rfl

/-- A positional call for a range of the buffer does not change what the loop
looks at. -/
theorem batch_transfer (hf : a.faults = []) {n : ℕ} {r : Except IoError Unit} {b : Arena}
    {buf' : Buffer} (hin : first.bufferOffset + n ≤ buf.memory.length)
    (h : a.transfer buf op first n = (r, b, buf')) :
    b.faults = [] ∧ b.batch buf' op = a.batch buf op := by
  cases op with
  | write =>
      rw [transfer_write hf] at h
      obtain ⟨-, h⟩ := Prod.mk.inj h
      obtain ⟨rfl, rfl⟩ := Prod.mk.inj h
      exact ⟨hf, rfl⟩
  | read =>
      rw [transfer_read hf] at h
      obtain ⟨-, h⟩ := Prod.mk.inj h
      obtain ⟨rfl, rfl⟩ := Prod.mk.inj h
      refine ⟨hf, ?_⟩
      have hlength : ∀ data : List UInt8, data.length ≤ n →
          (buf.memory.write first.bufferOffset data).length = buf.memory.length := by
        intro data hdata
        rcases eq_or_ne data [] with rfl | hne
        · rfl
        · rw [File.length_write _ _ hne]
          omega
      have hshort : (readFile (a.spanFile first) (a.slotOffset first.slot.toNat) n).2.length ≤ n := by
        rw [readFile, File.length_read]
        exact Nat.min_le_left ..
      unfold batch Buffer.fill
      dsimp only
      rw [hlength _ hshort]
      rfl

/-- A positional call for a group works where its spans are in the file. -/
theorem transfer_eq_ok (hf : a.faults = []) (haccepts : (a.batch buf op).Accepts first)
    (h : (a.batch buf op).Joined first joined) :
    (a.transfer buf op first (first.bytes + Batch.total joined)).1 = .ok () ↔
      ∀ sp ∈ first :: joined, (a.batch buf op).stored sp = true := by
  cases op with
  | write =>
      rw [transfer_write hf]
      exact ⟨fun _ _ _ => rfl, fun _ => rfl⟩
  | read =>
      rw [transfer_read hf, ← covers_iff haccepts h]
      exact readFile_fst

end Group

/-! ## The loop -/

section Loop

variable {op : IoOp}

/-- A stop that is not a throw. -/
def WentWrong (r : Except Stop Unit) : Prop :=
  r = .error .leftBuffer ∨ ∃ slot, r = .error (.indexedOutside slot)

theorem not_wentWrong_threw (e : IoError) : ¬ WentWrong (.error (.threw e)) := by
  rintro (h | ⟨slot, h⟩)
  · cases h
  · cases h

theorem not_wentWrong_ok : ¬ WentWrong (.ok ()) := by
  rintro (h | ⟨slot, h⟩)
  · cases h
  · cases h

/-- The loop at a group whose end the lookahead finds. -/
theorem runGroups_group {a : Arena} {buf : Buffer} {first : NvmeIoSpan}
    {joined rest : List NvmeIoSpan} (rounds : ℕ) (haccepts : (a.batch buf op).Accepts first)
    (hjoined : (a.batch buf op).Joined first joined)
    (hends : (a.batch buf op).Ends first joined rest)
    (hinside : ∀ next ∈ rest.head?, ¬ (a.batch buf op).Outside next) :
    runGroups op (rounds + 1) (first :: (joined ++ rest)) a buf =
      if buf.memory.length < first.bufferOffset + (first.bytes + Batch.total joined) then
        (.error .leftBuffer, a, buf)
      else
        match a.transfer buf op first (first.bytes + Batch.total joined) with
        | (.error e, a, buf) => (.error (.threw e), a, buf)
        | (.ok (), a, buf) => runGroups op rounds rest a buf := by
  rw [runGroups, checkSpan_eq_ok.mpr haccepts]
  dsimp only
  rewrite [lookahead_joined (.single a buf op first) hjoined hends hinside]
  rfl

variable {spans : List NvmeIoSpan}

theorem exists_outside {g : Batch}
    (h : ¬ ∀ next ∈ spans.head?, ¬ g.Outside next) :
    ∃ next rest, spans = next :: rest ∧ g.Outside next := by
  cases spans with
  | nil => exact absurd (fun next hnext => by cases hnext) h
  | cons next rest =>
      refine ⟨next, rest, rfl, ?_⟩
      by_contra hnext
      apply h
      intro x hx
      rwa [← Option.some.inj hx]

/-- Every batch that slips goes wrong. -/
theorem wentWrong_of_slips : ∀ {rounds : ℕ} {a : Arena} {buf : Buffer},
    a.faults = [] → buf.memory.length < 2 ^ 64 → spans.length ≤ rounds →
    (a.batch buf op).Slips spans → WentWrong (runGroups op rounds spans a buf).1 := by
  intro rounds
  induction rounds generalizing spans with
  | zero =>
      intro a buf _ _ hrounds hslips
      rw [List.length_eq_zero_iff.mp (Nat.le_zero.mp hrounds)] at hslips
      cases hslips
  | succ rounds ih =>
      intro a buf hf hsmall hrounds hslips
      -- A lookahead that looks outside, wherever the group was to go.
      have houtside : ∀ {first next joined after}, (a.batch buf op).Accepts first →
          (a.batch buf op).Joined first joined → (a.batch buf op).Outside next →
          WentWrong (runGroups op (rounds + 1) (first :: (joined ++ next :: after)) a buf).1 := by
        intro first next joined after hfirst hjoined hnext
        rw [runGroups, checkSpan_eq_ok.mpr hfirst]
        dsimp only
        rw [lookahead_outside (.single a buf op first) hjoined hnext]
        exact .inr ⟨_, rfl⟩
      cases hslips with
      | outside first joined next after hfirst hjoined hnext =>
          exact houtside hfirst hjoined hnext
      | leaves first joined after hfirst hjoined hends sp hmem hout =>
          by_cases hinside : ∀ next ∈ after.head?, ¬ (a.batch buf op).Outside next
          · rw [runGroups_group rounds hfirst hjoined hends hinside, if_pos]
            · exact .inl rfl
            · by_contra hle
              rw [Nat.not_lt, ← Nat.add_assoc] at hle
              exact hout ((hjoined.inBuffer_iff hsmall).mp hle sp hmem)
          · obtain ⟨next, rest, rfl, hnext⟩ := exists_outside hinside
            exact houtside hfirst hjoined hnext
      | later first joined after hfirst hjoined hends hall hafter =>
          by_cases hinside : ∀ next ∈ after.head?, ¬ (a.batch buf op).Outside next
          · have hin : first.bufferOffset + (first.bytes + Batch.total joined) ≤
                buf.memory.length := by
              rw [← Nat.add_assoc]
              exact (hjoined.inBuffer_iff hsmall).mpr fun sp hsp => (hall sp hsp).1
            have hok := (transfer_eq_ok hf hfirst hjoined).mpr fun sp hsp => (hall sp hsp).2
            rw [runGroups_group rounds hfirst hjoined hends hinside, if_neg (by omega)]
            generalize htransfer : a.transfer buf op first _ = r at hok ⊢
            obtain ⟨r, b, buf'⟩ := r
            obtain ⟨hfb, hbatch⟩ := batch_transfer hf hin htransfer
            obtain rfl : r = .ok () := hok
            have hlength : buf'.memory.length = buf.memory.length :=
              congrArg Batch.bufferBytes hbatch
            apply ih hfb
            · rwa [hlength]
            · rw [List.length_cons, List.length_append] at hrounds
              omega
            · rwa [hbatch]
          · obtain ⟨next, rest, rfl, hnext⟩ := exists_outside hinside
            exact houtside hfirst hjoined hnext

/-- A batch at which the loop goes wrong slips, and one that it gets through is
valid. -/
theorem slips_of_wentWrong : ∀ {rounds : ℕ} {a : Arena} {buf : Buffer},
    a.faults = [] → buf.memory.length < 2 ^ 64 → spans.length ≤ rounds →
    (WentWrong (runGroups op rounds spans a buf).1 → (a.batch buf op).Slips spans) ∧
      ((runGroups op rounds spans a buf).1 = .ok () → ∀ sp ∈ spans, (a.batch buf op).Valid sp) := by
  intro rounds
  induction rounds generalizing spans with
  | zero =>
      intro a buf _ _ hrounds
      rw [List.length_eq_zero_iff.mp (Nat.le_zero.mp hrounds)]
      refine ⟨fun h => absurd h not_wentWrong_ok, ?_⟩
      intro _ sp hsp
      cases hsp
  | succ rounds ih =>
      intro a buf hf hsmall hrounds
      cases spans with
      | nil =>
          refine ⟨fun h => absurd h not_wentWrong_ok, ?_⟩
          intro _ sp hsp
          cases hsp
      | cons first rest =>
          cases hcheck : a.checkSpan buf op first with
          | error e =>
              rw [runGroups, hcheck]
              refine ⟨fun h => absurd h (not_wentWrong_threw e), ?_⟩
              intro h
              cases h
          | ok u =>
              have hfirst := checkSpan_eq_ok.mp hcheck
              have hlook : LooksAhead (a.batch buf op) first first.bytes rest
                  (a.lookahead buf op first first.bytes first rest) :=
                lookahead_cases (.single a buf op first)
              generalize hend : a.lookahead buf op first first.bytes first rest = r at hlook
              cases hlook with
              | refused e sp hmem hsp =>
                  rw [runGroups, hcheck]
                  dsimp only
                  rw [hend]
                  refine ⟨fun h => absurd h (not_wentWrong_threw e), ?_⟩
                  intro h
                  cases h
              | outside joined after next hspans hjoined hnext =>
                  rw [hspans]
                  refine ⟨fun _ => .outside first joined next after hfirst hjoined hnext, ?_⟩
                  intro h
                  rw [runGroups, hcheck] at h
                  dsimp only at h
                  rw [← hspans, hend] at h
                  cases h
              | ends joined after hspans hjoined hends hinside =>
                  rw [hspans, runGroups_group rounds hfirst hjoined hends hinside]
                  have hbuffer := hjoined.inBuffer_iff hsmall
                  rw [Nat.add_assoc] at hbuffer
                  by_cases hin : first.bufferOffset + (first.bytes + Batch.total joined) ≤
                      buf.memory.length
                  · rw [if_neg (by omega)]
                    have hgroup := hbuffer.mp hin
                    have hstored := transfer_eq_ok hf hfirst hjoined
                    generalize htransfer : a.transfer buf op first _ = r at hstored ⊢
                    obtain ⟨r, b, buf'⟩ := r
                    obtain ⟨hfb, hbatch⟩ := batch_transfer hf hin htransfer
                    cases r with
                    | error e =>
                        refine ⟨fun h => absurd h (not_wentWrong_threw e), ?_⟩
                        intro h
                        cases h
                    | ok u =>
                        have hlength : buf'.memory.length = buf.memory.length :=
                          congrArg Batch.bufferBytes hbatch
                        have hafter : after.length ≤ rounds := by
                          rw [hspans, List.length_cons, List.length_append] at hrounds
                          omega
                        have ih := ih hfb (by rwa [hlength]) hafter
                        rw [hbatch] at ih
                        refine ⟨?_, ?_⟩
                        · intro h
                          refine .later first joined after hfirst hjoined hends ?_ (ih.1 h)
                          intro sp hsp
                          exact ⟨hgroup sp hsp, hstored.mp rfl sp hsp⟩
                        · intro h sp hsp
                          rw [← List.cons_append, List.mem_append] at hsp
                          rcases hsp with hsp | hsp
                          · have haccepts : (a.batch buf op).Accepts sp := by
                              rcases List.mem_cons.mp hsp with rfl | hmem
                              · exact hfirst
                              · exact hjoined.accepts sp hmem
                            exact ⟨haccepts.1, haccepts.2.1, hgroup sp hsp⟩
                          · exact ih.2 h sp hsp
                  · rw [if_pos (by omega)]
                    obtain ⟨sp, hmem, hout⟩ : ∃ sp ∈ first :: joined, ¬ (a.batch buf op).InBuffer sp := by
                      by_contra hall
                      push Not at hall
                      exact hin (hbuffer.mpr hall)
                    refine ⟨fun _ => .leaves first joined after hfirst hjoined hends sp hmem hout, ?_⟩
                    intro h
                    cases h

end Loop

/-! ## Valid batches -/

section Valid

variable {a : Arena} {buf : Buffer} {op : IoOp} {first next : NvmeIoSpan}
  {joined : List NvmeIoSpan}

theorem inRange_of_accepts {sp : NvmeIoSpan} (h : (a.batch buf op).Accepts sp) :
    a.InRange sp.slot 0 sp.bytes := by
  refine ⟨h.1, ?_⟩
  rw [Nat.zero_add]
  exact h.2.1

/-- Within the buffer a span that joins another one lies right behind it. -/
theorem bufferOffset_joins (hsmall : buf.memory.length < 2 ^ 64)
    (h : (a.batch buf op).Joins first next) (hin : (a.batch buf op).InBuffer first) :
    next.bufferOffset = first.bufferOffset + first.bytes := by
  obtain ⟨-, -, hoffset, -⟩ := h
  rw [hoffset]
  apply Nat.mod_eq_of_lt
  exact Nat.lt_of_le_of_lt hin hsmall

theorem readSlot_eq (hnf : a.NoFaults) {sp : NvmeIoSpan} (h : (a.batch buf op).Accepts sp)
    (address : ℕ) : a.readSlotRange sp.slot 0 sp.bytes address =
      readFile (a.spanFile sp) (a.slotOffset sp.slot.toNat) sp.bytes :=
  readSlotRange_eq hnf (inRange_of_accepts h) address

/-- The group at the head of a valid batch: it lies in the buffer. -/
theorem exists_group {rest : List NvmeIoSpan} (hsmall : buf.memory.length < 2 ^ 64)
    (hvalid : ∀ sp ∈ first :: rest, (a.batch buf op).Valid sp) :
    ∃ joined after, rest = joined ++ after ∧ (a.batch buf op).Joined first joined ∧
      (a.batch buf op).Ends first joined after ∧
      (∀ next ∈ after.head?, ¬ (a.batch buf op).Outside next) ∧
      (∀ sp ∈ first :: joined, (a.batch buf op).InBuffer sp) ∧
      first.bufferOffset + (first.bytes + Batch.total joined) ≤ buf.memory.length := by
  have hlook : LooksAhead (a.batch buf op) first first.bytes rest
      (a.lookahead buf op first first.bytes first rest) := lookahead_cases (.single a buf op first)
  generalize a.lookahead buf op first first.bytes first rest = r at hlook
  cases hlook with
  | ends joined after hspans hjoined hends hinside =>
      have hgroup : ∀ sp ∈ first :: joined, (a.batch buf op).InBuffer sp := by
        intro sp hsp
        refine (hvalid sp ?_).2.2
        rw [hspans, ← List.cons_append]
        exact List.mem_append_left _ hsp
      refine ⟨joined, after, hspans, hjoined, hends, hinside, hgroup, ?_⟩
      rw [← Nat.add_assoc]
      exact (hjoined.inBuffer_iff hsmall).mpr hgroup
  | outside joined after next hspans _ hnext =>
      have hmem : next ∈ first :: rest := by simp [hspans]
      exact absurd (hvalid next hmem).1 hnext.2
  | refused e sp hmem hsp => exact absurd (hvalid sp (List.mem_cons_of_mem _ hmem)).accepts hsp

/-- The spans of a group, read one by one into any buffer. -/
theorem readEachSlot_group (hnf : a.NoFaults) (hsmall : buf.memory.length < 2 ^ 64) :
    ∀ {first : NvmeIoSpan} {into : Buffer}, (a.batch buf .read).Accepts first →
    (a.batch buf .read).Joined first joined →
    (∀ sp ∈ first :: joined, (a.batch buf .read).InBuffer sp) →
    a.readEachSlot (first :: joined) into =
      ((readFile (a.spanFile first) (a.slotOffset first.slot.toNat)
          (first.bytes + Batch.total joined)).1,
        into.fill first.bufferOffset
          (readFile (a.spanFile first) (a.slotOffset first.slot.toNat)
            (first.bytes + Batch.total joined)).2) := by
  induction joined with
  | nil =>
      intro first into haccepts _ _
      have htotal : first.bytes + Batch.total [] = first.bytes := rfl
      rw [readEachSlot, readSlot_eq hnf haccepts, htotal]
      generalize readFile _ _ _ = r
      obtain ⟨r, data⟩ := r
      cases r with
      | error e => rfl
      | ok u => rfl
  | cons next rest ih =>
      intro first into haccepts hjoined hin
      obtain ⟨hj, hnext, hrest⟩ := hjoined
      obtain ⟨hfirst, hin⟩ := List.forall_mem_cons.mp hin
      have htotal : Batch.total (next :: rest) = next.bytes + Batch.total rest := rfl
      rw [readEachSlot, readSlot_eq hnf haccepts, htotal]
      by_cases hcovers : (a.spanFile first).Covers (a.slotOffset first.slot.toNat) first.bytes
      · -- The rest of the group is read behind this span, in the file and in the buffer.
        rw [readFile_add_of_covers hcovers, readFile_of_covers hcovers]
        dsimp only
        rw [ih hnext hrest hin, spanFile_joins hj, slotOffset_joins haccepts hj,
          bufferOffset_joins hsmall hj hfirst]
        unfold Buffer.fill
        rw [File.write_append, File.length_read]
      · rw [readFile_add_of_not_covers _ hcovers]
        have hfail : readFile (a.spanFile first) (a.slotOffset first.slot.toNat) first.bytes =
            (.error .readFailed, _) := readFile_add_of_not_covers 0 hcovers
        generalize readFile _ _ first.bytes = r at hfail ⊢
        obtain ⟨r, data⟩ := r
        obtain rfl : r = .error .readFailed := congrArg Prod.fst hfail
        rfl

/-- Reading a valid batch is reading its spans. -/
theorem runGroups_read (hf : a.faults = []) :
    ∀ {rounds : ℕ} {buf : Buffer}, buf.memory.length < 2 ^ 64 → spans.length ≤ rounds →
    (∀ sp ∈ spans, (a.batch buf .read).Valid sp) →
    runGroups .read rounds spans a buf =
      ((a.readEachSlot spans buf).1.mapError .threw, a, (a.readEachSlot spans buf).2) := by
  intro rounds
  induction rounds generalizing spans with
  | zero =>
      intro buf _ hrounds _
      rw [List.length_eq_zero_iff.mp (Nat.le_zero.mp hrounds)]
      rfl
  | succ rounds ih =>
      intro buf hsmall hrounds hvalid
      cases spans with
      | nil => rfl
      | cons first rest =>
          obtain ⟨joined, after, rfl, hjoined, hends, hinside, hgroup, hin⟩ :=
            exists_group hsmall hvalid
          have hfirst := (hvalid first List.mem_cons_self).accepts
          rw [runGroups_group rounds hfirst hjoined hends hinside, if_neg (Nat.not_lt.mpr hin),
            ← List.cons_append, readEachSlot_append,
            readEachSlot_group (noFaults_of_nil hf) hsmall hfirst hjoined hgroup]
          have htransfer := @transfer_read a buf first hf (first.bytes + Batch.total joined)
          obtain ⟨-, hbatch⟩ := batch_transfer hf hin htransfer
          rw [htransfer]
          generalize readFile _ _ _ = r at hbatch ⊢
          obtain ⟨r, data⟩ := r
          cases r with
          | error e => rfl
          | ok u =>
              have hlength : (buf.fill first.bufferOffset data).memory.length = buf.memory.length :=
                congrArg Batch.bufferBytes hbatch
              dsimp only
              apply ih
              · rwa [hlength]
              · rw [List.length_cons, List.length_append] at hrounds
                omega
              · intro sp hsp
                rw [hbatch]
                apply hvalid
                exact List.mem_cons_of_mem _ (List.mem_append_right _ hsp)

/-- A write of a slot of an arena that is written in place. -/
theorem writeSlot_eq (hf : a.faults = []) (hw : a.readOnly = false) (ho : a.overlay = none)
    {sp : NvmeIoSpan} (h : (a.batch buf op).Accepts sp) :
    a.writeSlotRange sp.slot 0 (spanData buf sp) =
      some (.ok (), { a with
        base := a.base.write (a.slotOffset sp.slot.toNat) (spanData buf sp) }) := by
  have hrange : a.InRange sp.slot 0 (spanData buf sp).length := by
    rw [spanData, File.length_read]
    exact inRange_of_accepts h
  unfold writeSlotRange
  rw [if_neg (by simp [hw]), hrange.validate]
  dsimp only
  rw [if_neg (by simp [ho]), pwriteAll_base hf]
  rfl

/-- The spans of a group, written one by one. -/
theorem writeEachSlot_group (hsmall : buf.memory.length < 2 ^ 64) :
    ∀ {first : NvmeIoSpan} {a : Arena}, a.faults = [] → a.readOnly = false → a.overlay = none →
    (a.batch buf .write).Accepts first → (a.batch buf .write).Joined first joined →
    (∀ sp ∈ first :: joined, (a.batch buf .write).InBuffer sp) →
    writeEachSlot buf (first :: joined) a =
      some (.ok (), { a with
        base := a.base.write (a.slotOffset first.slot.toNat)
          (buf.memory.read first.bufferOffset (first.bytes + Batch.total joined)) }) := by
  induction joined with
  | nil =>
      intro first a hf hw ho haccepts _ _
      rw [writeEachSlot, writeSlot_eq hf hw ho haccepts]
      rfl
  | cons next rest ih =>
      intro first a hf hw ho haccepts hjoined hin
      obtain ⟨hj, hnext, hrest⟩ := hjoined
      obtain ⟨hfirst, hin⟩ := List.forall_mem_cons.mp hin
      have htotal : Batch.total (next :: rest) = next.bytes + Batch.total rest := rfl
      rw [writeEachSlot, writeSlot_eq hf hw ho haccepts, htotal, File.read_add, File.write_append,
        File.length_read, ← slotOffset_joins haccepts hj, ← bufferOffset_joins hsmall hj hfirst]
      -- The rest of the group finds the arena with another base file.
      exact ih (a := { a with
        base := a.base.write (a.slotOffset first.slot.toNat) (spanData buf first) })
        hf hw ho hnext hrest hin

/-- Writing a valid batch in place is writing its spans. -/
theorem runGroups_write (hsmall : buf.memory.length < 2 ^ 64) :
    ∀ {rounds : ℕ} {a : Arena}, a.faults = [] → a.readOnly = false → a.overlay = none →
    spans.length ≤ rounds → (∀ sp ∈ spans, (a.batch buf .write).Valid sp) →
    ∃ b, writeEachSlot buf spans a = some (.ok (), b) ∧
      runGroups .write rounds spans a buf = (.ok (), b, buf) := by
  intro rounds
  induction rounds generalizing spans with
  | zero =>
      intro a _ _ _ hrounds _
      rw [List.length_eq_zero_iff.mp (Nat.le_zero.mp hrounds)]
      exact ⟨a, rfl, rfl⟩
  | succ rounds ih =>
      intro a hf hw ho hrounds hvalid
      cases spans with
      | nil => exact ⟨a, rfl, rfl⟩
      | cons first rest =>
          obtain ⟨joined, after, rfl, hjoined, hends, hinside, hgroup, hin⟩ :=
            exists_group hsmall hvalid
          have hfirst := (hvalid first List.mem_cons_self).accepts
          rw [runGroups_group rounds hfirst hjoined hends hinside, if_neg (Nat.not_lt.mpr hin),
            ← List.cons_append, writeEachSlot_append,
            writeEachSlot_group hsmall hf hw ho hfirst hjoined hgroup, transfer_write hf]
          apply ih
          · exact hf
          · exact hw
          · exact ho
          · rw [List.length_cons, List.length_append] at hrounds
            omega
          · intro sp hsp
            exact hvalid sp (List.mem_cons_of_mem _ (List.mem_append_right _ hsp))

end Valid

/-! ## Writes to an overlay -/

/-- The write of a span completes a record: it is of a whole one, the record is in
the overlay, or the base file has it. -/
def Completes (g : Batch) (base : File) (state : ℕ → OverlayState) (sp : NvmeIoSpan) : Prop :=
  sp.bytes = g.slotBytes ∨ state sp.slot.toNat = .valid ∨
    base.Covers (sp.slot.toNat * g.slotBytes) g.slotBytes

/-- Every span before is written, and then a span leaves the buffer. -/
inductive OverlaySlips (g : Batch) (base : File) : (ℕ → OverlayState) → List NvmeIoSpan → Prop
  | leaves (state : ℕ → OverlayState) (sp : NvmeIoSpan) (after : List NvmeIoSpan)
      (haccepts : g.Accepts sp) (hcompletes : Completes g base state sp) (hout : ¬ g.InBuffer sp) :
      OverlaySlips g base state (sp :: after)
  | later (state : ℕ → OverlayState) (sp : NvmeIoSpan) (after : List NvmeIoSpan)
      (hvalid : g.Valid sp) (hcompletes : Completes g base state sp)
      (hafter : OverlaySlips g base (Function.update state sp.slot.toNat .valid) after) :
      OverlaySlips g base state (sp :: after)

section Overlay

variable {a b : Arena} {buf : Buffer} {sp : NvmeIoSpan}

theorem OverlaySlips.head {g : Batch} {base : File} {state : ℕ → OverlayState}
    {after : List NvmeIoSpan} (h : OverlaySlips g base state (sp :: after)) :
    g.Accepts sp ∧ Completes g base state sp := by
  cases h with
  | leaves _ _ _ haccepts hcompletes _ => exact ⟨haccepts, hcompletes⟩
  | later _ _ _ hvalid hcompletes _ => exact ⟨hvalid.accepts, hcompletes⟩

theorem validate_of_not_inRange {slot : ℤ} {offset n : ℕ} {op : IoOp}
    (h : ¬ a.InRange slot offset n) : ∃ e, a.validateSlotRangeIo slot offset n op = .error e := by
  unfold validateSlotRangeIo validateSlotIo validateIo
  by_cases hcount : a.slotCount = 0
  · exact ⟨_, by rw [if_pos hcount]; rfl⟩
  by_cases hbytes : a.slotBytes < n
  · exact ⟨_, by rw [if_neg hcount, if_pos hbytes]; rfl⟩
  by_cases hslot : a.HasSlot slot
  · have hrange : a.slotBytes < offset ∨ a.slotBytes - offset < n := by
      by_contra hin
      exact h ⟨hslot, by omega⟩
    exact ⟨_, by simp only [if_neg hcount, if_neg hbytes, if_pos hslot, Except.bind, if_pos hrange]; rfl⟩
  · exact ⟨_, by simp only [if_neg hcount, if_neg hbytes, if_neg hslot, Except.bind]; rfl⟩

/-- Without faults the write of a record succeeds exactly where it completes the
record. -/
theorem SlotWrite.completes_iff {data : List UInt8} {r : Except IoError Unit} (buf : Buffer)
    (h : SlotWrite a sp.slot.toNat 0 data r b) (hnf : a.NoFaults)
    (hidle : a.overlayValid sp.slot.toNat ≠ .initializing) (hlength : data.length = sp.bytes) :
    r = .ok () ↔ Completes (a.batch buf .write) a.base a.overlayValid sp := by
  constructor
  · intro hok
    cases hv : a.overlayValid sp.slot.toNat with
    | initializing => exact absurd hv hidle
    | valid => exact .inr (.inl hv)
    | base =>
        rcases (h.complete hok hv).2 with ⟨-, hfull⟩ | hle
        · exact .inl (hlength.symm.trans hfull)
        · exact .inr (.inr (.inr hle))
  · rintro (hfull | hv | hcovers)
    · exact h.succeeds hnf (.inl ⟨rfl, hlength.trans hfull⟩)
    · exact h.succeeds hnf (.inr (.inl hv))
    · exact h.succeeds hnf (.inr (.inr hcovers))

/-- What the loop of a write to an overlay ends with. -/
structure SpansOutcome (buf : Buffer) (spans : List NvmeIoSpan) (a : Arena) (r : Except Stop Unit)
    (b : Arena) : Prop where
  wentWrong_iff : WentWrong r ↔ OverlaySlips (a.batch buf .write) a.base a.overlayValid spans
  valid_of_ok : r = .ok () → ∀ sp ∈ spans, (a.batch buf .write).Valid sp
  each : (∀ sp ∈ spans, (a.batch buf .write).Valid sp) →
    ∃ r', writeEachSlot buf spans a = some (r', b) ∧ r = r'.mapError .threw

/-- A span that the tests refuse, or whose write throws. -/
theorem SpansOutcome.of_threw {rest : List NvmeIoSpan} {e : IoError}
    (hslips : ¬ ((a.batch buf .write).Accepts sp ∧
      Completes (a.batch buf .write) a.base a.overlayValid sp))
    (heach : (a.batch buf .write).Accepts sp →
      writeEachSlot buf (sp :: rest) a = some (.error e, b)) :
    SpansOutcome buf (sp :: rest) a (.error (.threw e)) b where
  wentWrong_iff := ⟨fun h => absurd h (not_wentWrong_threw e), fun h => absurd h.head hslips⟩
  valid_of_ok h := nomatch h
  each hvalid := ⟨.error e, heach (hvalid sp List.mem_cons_self).accepts, rfl⟩

/-- A span that leaves the buffer. -/
theorem SpansOutcome.of_leaves {rest : List NvmeIoSpan} (haccepts : (a.batch buf .write).Accepts sp)
    (hcompletes : Completes (a.batch buf .write) a.base a.overlayValid sp)
    (hout : ¬ (a.batch buf .write).InBuffer sp) :
    SpansOutcome buf (sp :: rest) a (.error .leftBuffer) b where
  wentWrong_iff := ⟨fun _ => .leaves _ sp rest haccepts hcompletes hout, fun _ => .inl rfl⟩
  valid_of_ok h := nomatch h
  each hvalid := absurd (hvalid sp List.mem_cons_self).2.2 hout

/-- A span that is written, and those after it. -/
theorem SpansOutcome.of_written {rest : List NvmeIoSpan} {r : Except Stop Unit} {c : Arena}
    (hvalid : (a.batch buf .write).Valid sp)
    (hcompletes : Completes (a.batch buf .write) a.base a.overlayValid sp)
    (hw : SlotWrite a sp.slot.toNat 0 (spanData buf sp) (.ok ()) b)
    (heq : a.writeSlotRange sp.slot 0 (spanData buf sp) = some (.ok (), b))
    (h : SpansOutcome buf rest b r c) : SpansOutcome buf (sp :: rest) a r c := by
  have hbatch : b.batch buf .write = a.batch buf .write := by
    unfold batch
    rw [hw.slotBytes, hw.slotCount]
    rfl
  have hstate : b.overlayValid = Function.update a.overlayValid sp.slot.toNat .valid := hw.state
  constructor
  · rw [h.wentWrong_iff, hbatch, hw.base, hstate]
    constructor
    · exact .later _ sp rest hvalid hcompletes
    · intro hslips
      cases hslips with
      | leaves _ _ _ _ _ hout => exact absurd hvalid.2.2 hout
      | later _ _ _ _ _ hafter => exact hafter
  · intro hok
    have hrest := h.valid_of_ok hok
    rw [hbatch] at hrest
    exact List.forall_mem_cons.mpr ⟨hvalid, hrest⟩
  · intro hall
    obtain ⟨r', heach, hr⟩ := h.each (by
      rw [hbatch]
      exact (List.forall_mem_cons.mp hall).2)
    exact ⟨r', by rw [writeEachSlot, heq]; exact heach, hr⟩

/-- The loop of a write to an overlay. -/
theorem writeEachSpan_spec : ∀ {a : Arena}, 0 < a.slotBytes →
    a.overlay.isSome → a.NoFaults → (∀ n < a.slotCount, a.overlayValid n ≠ .initializing) →
    ∃ r b, writeEachSpan buf spans a = some (r, b) ∧ SpansOutcome buf spans a r b := by
  induction spans with
  | nil =>
      intro a _ _ _ _
      refine ⟨.ok (), a, rfl, ⟨fun h => absurd h not_wentWrong_ok, fun h => nomatch h⟩, ?_,
        fun _ => ⟨.ok (), rfl, rfl⟩⟩
      intro _ sp hsp
      cases hsp
  | cons sp rest ih =>
      intro a hpos ho hnf hidle
      have hlength : (spanData buf sp).length = sp.bytes := File.length_read ..
      by_cases hexceeds : exceedsBuffer buf sp = true
      · have hsp : ¬ (a.batch buf .write).Accepts sp := by
          rintro ⟨-, -, hle⟩
          exact absurd (of_decide_eq_true hexceeds) (Nat.not_lt.mpr hle)
        exact ⟨_, a, by rw [writeEachSpan, if_pos hexceeds], .of_threw (fun h => hsp h.1)
          (fun h => absurd h hsp)⟩
      by_cases haccepts : (a.batch buf .write).Accepts sp
      · have hrange : a.InRange sp.slot 0 (spanData buf sp).length := by
          rw [hlength]
          exact inRange_of_accepts haccepts
        have hslot := hidle _ (HasSlot.toNat_lt hrange.1)
        obtain ⟨r, b, heq, hw⟩ := writeSlotRange_spec ho hpos hrange hslot
        have hcompletes := hw.completes_iff buf hnf hslot hlength
        cases r with
        | error e =>
            refine ⟨_, b, by rw [writeEachSpan, if_neg hexceeds, heq]; rfl, .of_threw ?_ ?_⟩
            · intro h
              exact absurd (hcompletes.mpr h.2) (by simp)
            · intro _
              rw [writeEachSlot, heq]
              rfl
        | ok u =>
            have hcompletes := hcompletes.mp rfl
            by_cases hin : (a.batch buf .write).InBuffer sp
            · have hidle' : ∀ n < b.slotCount, b.overlayValid n ≠ .initializing := by
                intro n hn
                rw [hw.slotCount] at hn
                rw [hw.state]
                rcases eq_or_ne n sp.slot.toNat with rfl | hne
                · rw [Function.update_self, if_pos rfl]
                  simp
                · rw [Function.update_of_ne hne]
                  exact hidle n hn
              obtain ⟨r, c, hrest, hout⟩ :=
                ih (by rw [hw.slotBytes]; exact hpos) hw.overlay (hw.faults hnf) hidle'
              refine ⟨r, c, ?_, .of_written ⟨haccepts.1, haccepts.2.1, hin⟩ hcompletes hw heq hout⟩
              rw [writeEachSpan, if_neg hexceeds, heq, Option.bind_some]
              exact (if_neg (Nat.not_lt.mpr hin)).trans hrest
            · refine ⟨_, b, ?_, .of_leaves haccepts hcompletes hin⟩
              rw [writeEachSpan, if_neg hexceeds, heq, Option.bind_some]
              exact if_pos (Nat.not_le.mp hin)
      · have hrange : ¬ a.InRange sp.slot 0 (spanData buf sp).length := by
          intro hrange
          apply haccepts
          refine ⟨hrange.1, ?_, Nat.not_lt.mp (mt decide_eq_true hexceeds)⟩
          have hle := hrange.2
          rwa [hlength, Nat.zero_add] at hle
        obtain ⟨e, he⟩ : ∃ e, a.validateSlotRangeIo sp.slot 0 _ .write = .error e :=
          validate_of_not_inRange hrange
        have hnone : ¬ (a.readOnly = true ∧ a.overlay = none) := by
          rintro ⟨-, hn⟩
          rw [hn] at ho
          cases ho
        have heq : a.writeSlotRange sp.slot 0 (spanData buf sp) = some (.error e, a) := by
          unfold writeSlotRange
          rw [if_neg hnone, he]
        exact ⟨_, a, by rw [writeEachSpan, if_neg hexceeds, heq]; rfl,
          .of_threw (fun h => haccepts h.1) (fun h => absurd h haccepts)⟩

end Overlay

/-! ## The result -/

/-- A batch whose spans are valid, with a buffer where there is a span. -/
def BatchValid (a : Arena) (buf : Buffer) (op : IoOp) (spans : List NvmeIoSpan) : Prop :=
  (∀ sp ∈ spans, (a.batch buf op).Valid sp) ∧ (spans ≠ [] → buf.address ≠ 0)

/-- A read of a batch: a valid one reads its spans one by one, any other throws. -/
def ReadAgrees (a : Arena) (buf : Buffer) (spans : List NvmeIoSpan) : Prop :=
  (a.BatchValid buf .read spans → a.readSpans buf spans =
    ((a.readEachSlot spans buf).1.mapError .threw, (a.readEachSlot spans buf).2)) ∧
  (¬ a.BatchValid buf .read spans → ∃ e, (a.readSpans buf spans).1 = .error (.threw e))

/-- A write of a batch: a valid one leaves the files as its spans do one by one,
any other throws. -/
def WriteAgrees (a : Arena) (buf : Buffer) (spans : List NvmeIoSpan) : Prop :=
  (a.BatchValid buf .write spans → ∃ r r' b, a.writeSpans buf spans = some (r, b) ∧
    writeEachSlot buf spans a = some (r', b) ∧ (spans ≠ [] → r = r'.mapError .threw)) ∧
  (¬ a.BatchValid buf .write spans → ∃ e b, a.writeSpans buf spans = some (.error (.threw e), b))

/-- The reads that slip through the tests. -/
def ReadSlips (a : Arena) (buf : Buffer) (spans : List NvmeIoSpan) : Prop :=
  buf.address ≠ 0 ∧ (a.batch buf .read).Slips spans

/-- The writes that slip through the tests. -/
def WriteSlips (a : Arena) (buf : Buffer) (spans : List NvmeIoSpan) : Prop :=
  buf.address ≠ 0 ∧
    if a.overlay.isSome then OverlaySlips (a.batch buf .write) a.base a.overlayValid spans
    else a.readOnly = false ∧ (a.batch buf .write).Slips spans

section Result

variable {a : Arena} {buf : Buffer} {spans : List NvmeIoSpan}

/-- An outcome that is neither success nor wrong is a throw. -/
theorem exists_threw {r : Except Stop Unit} (hok : r ≠ .ok ()) (hwrong : ¬ WentWrong r) :
    ∃ e, r = .error (.threw e) := by
  cases r with
  | ok u => exact absurd rfl hok
  | error stop =>
      cases stop with
      | threw e => exact ⟨e, rfl⟩
      | leftBuffer => exact absurd (.inl rfl) hwrong
      | indexedOutside slot => exact absurd (.inr ⟨slot, rfl⟩) hwrong

theorem not_wentWrong_mapError (r : Except IoError Unit) : ¬ WentWrong (r.mapError .threw) := by
  cases r with
  | error e => exact not_wentWrong_threw e
  | ok u => exact not_wentWrong_ok

theorem readAgrees_iff (hf : a.faults = []) (hsmall : buf.memory.length < 2 ^ 64) :
    ReadAgrees a buf spans ↔ ¬ ReadSlips a buf spans := by
  unfold ReadAgrees ReadSlips BatchValid readSpans
  by_cases hempty : spans = []
  · subst hempty
    rw [if_pos rfl]
    constructor
    · rintro - ⟨-, hslips⟩
      cases hslips
    · intro _
      refine ⟨fun _ => rfl, ?_⟩
      intro hvalid
      exact (hvalid ⟨fun sp hsp => (nomatch hsp), fun hne => absurd rfl hne⟩).elim
  rw [if_neg hempty]
  by_cases haddress : buf.address = 0
  · rw [if_pos haddress]
    constructor
    · rintro - ⟨hne, -⟩
      exact hne haddress
    · intro _
      exact ⟨fun hvalid => absurd haddress (hvalid.2 hempty), fun _ => ⟨_, rfl⟩⟩
  rw [if_neg haddress]
  have hrun : (WentWrong (runGroups .read spans.length spans a buf).1 →
        (a.batch buf .read).Slips spans) ∧
      ((runGroups .read spans.length spans a buf).1 = .ok () →
        ∀ sp ∈ spans, (a.batch buf .read).Valid sp) :=
    slips_of_wentWrong hf hsmall (Nat.le_refl _)
  constructor
  · rintro ⟨hvalid, hinvalid⟩ ⟨-, h⟩
    have hwrong := wentWrong_of_slips hf hsmall (Nat.le_refl spans.length) h
    by_cases hall : (∀ sp ∈ spans, (a.batch buf .read).Valid sp) ∧ (spans ≠ [] → buf.address ≠ 0)
    · rw [congrArg Prod.fst (hvalid hall)] at hwrong
      exact not_wentWrong_mapError _ hwrong
    · obtain ⟨e, he⟩ := hinvalid hall
      rw [he] at hwrong
      exact not_wentWrong_threw e hwrong
  · intro hno
    refine ⟨?_, ?_⟩
    · intro hvalid
      rw [runGroups_read hf hsmall (Nat.le_refl _) hvalid.1]
    · intro hinvalid
      apply exists_threw
      · intro hok
        exact hinvalid ⟨hrun.2 hok, fun _ => haddress⟩
      · intro hwrong
        exact hno ⟨haddress, hrun.1 hwrong⟩

/-- An arena that is attached read-only refuses every write. -/
theorem writeEachSlot_readOnly (hro : a.readOnly = true ∧ a.overlay = none) (sp : NvmeIoSpan)
    (rest : List NvmeIoSpan) :
    writeEachSlot buf (sp :: rest) a = some (.error .attachedReadOnly, a) := by
  rw [writeEachSlot, writeSlotRange, if_pos hro]
  rfl

theorem writeAgrees_iff (hf : a.faults = []) (hpos : 0 < a.slotBytes)
    (hidle : ∀ n < a.slotCount, a.overlayValid n ≠ .initializing)
    (hsmall : buf.memory.length < 2 ^ 64) :
    WriteAgrees a buf spans ↔ ¬ WriteSlips a buf spans := by
  unfold WriteAgrees WriteSlips BatchValid writeSpans
  by_cases hro : a.readOnly = true ∧ a.overlay = none
  · -- Nothing is written, by the batch or by its spans.
    rw [if_pos hro, if_neg (by simp [hro.2])]
    constructor
    · rintro - ⟨-, hw, -⟩
      rw [hro.1] at hw
      cases hw
    · intro _
      refine ⟨fun _ => ?_, fun _ => ⟨_, _, rfl⟩⟩
      cases spans with
      | nil => exact ⟨_, .ok (), a, rfl, rfl, fun hne => absurd rfl hne⟩
      | cons sp rest => exact ⟨_, _, a, rfl, writeEachSlot_readOnly hro sp rest, fun _ => rfl⟩
  rw [if_neg hro]
  by_cases hempty : spans = []
  · subst hempty
    rw [if_pos rfl]
    constructor
    · rintro - ⟨-, hslips⟩
      split_ifs at hslips
      · cases hslips
      · cases hslips.2
    · intro _
      refine ⟨fun _ => ⟨_, .ok (), a, rfl, rfl, fun _ => rfl⟩, ?_⟩
      intro hvalid
      exact (hvalid ⟨fun sp hsp => (nomatch hsp), fun hne => absurd rfl hne⟩).elim
  rw [if_neg hempty]
  by_cases haddress : buf.address = 0
  · rw [if_pos haddress]
    constructor
    · rintro - ⟨hne, -⟩
      exact hne haddress
    · intro _
      exact ⟨fun hvalid => absurd haddress (hvalid.2 hempty), fun _ => ⟨_, _, rfl⟩⟩
  rw [if_neg haddress]
  -- What either loop ends with, and when it goes wrong.
  obtain ⟨r, b, hrun, hwrong, hok, heach⟩ : ∃ r b,
      (if a.overlay.isSome then writeEachSpan buf spans a
        else
          let r := runGroups .write spans.length spans a buf
          some (r.1, r.2.1)) = some (r, b) ∧
      (WentWrong r ↔
        if a.overlay.isSome then OverlaySlips (a.batch buf .write) a.base a.overlayValid spans
        else a.readOnly = false ∧ (a.batch buf .write).Slips spans) ∧
      (r = .ok () → ∀ sp ∈ spans, (a.batch buf .write).Valid sp) ∧
      ((∀ sp ∈ spans, (a.batch buf .write).Valid sp) →
        ∃ r', writeEachSlot buf spans a = some (r', b) ∧ r = r'.mapError .threw) := by
    by_cases ho : a.overlay.isSome
    · obtain ⟨r, b, heq, hout⟩ := writeEachSpan_spec hpos ho (noFaults_of_nil hf) hidle
      rw [if_pos ho, if_pos ho]
      exact ⟨r, b, heq, hout.wentWrong_iff, hout.valid_of_ok, hout.each⟩
    · have hnone : a.overlay = none := Option.not_isSome_iff_eq_none.mp ho
      have hw : a.readOnly = false := by
        apply Bool.eq_false_iff.mpr
        intro hro'
        exact hro ⟨hro', hnone⟩
      have hslips : (WentWrong (runGroups .write spans.length spans a buf).1 →
            (a.batch buf .write).Slips spans) ∧
          ((runGroups .write spans.length spans a buf).1 = .ok () →
            ∀ sp ∈ spans, (a.batch buf .write).Valid sp) :=
        slips_of_wentWrong hf hsmall (Nat.le_refl _)
      rw [if_neg ho, if_neg ho]
      refine ⟨_, _, rfl, ⟨fun h => ⟨hw, hslips.1 h⟩, ?_⟩, hslips.2, ?_⟩
      · rintro ⟨-, h⟩
        exact wentWrong_of_slips hf hsmall (Nat.le_refl spans.length) h
      · intro hvalid
        obtain ⟨b, heach, hgroups⟩ := runGroups_write hsmall hf hw hnone (Nat.le_refl _) hvalid
        rw [hgroups]
        exact ⟨.ok (), heach, rfl⟩
  rw [hrun]
  constructor
  · rintro ⟨hvalid, hinvalid⟩ ⟨-, h⟩
    have hwrong := hwrong.mpr h
    by_cases hall : (∀ sp ∈ spans, (a.batch buf .write).Valid sp) ∧ (spans ≠ [] → buf.address ≠ 0)
    · obtain ⟨r', -, hr⟩ := heach hall.1
      rw [hr] at hwrong
      exact not_wentWrong_mapError _ hwrong
    · obtain ⟨e, c, he⟩ := hinvalid hall
      obtain ⟨rfl, -⟩ := Prod.mk.inj (Option.some.inj he)
      exact not_wentWrong_threw e hwrong
  · intro hno
    refine ⟨?_, ?_⟩
    · intro hvalid
      obtain ⟨r', heq, hr⟩ := heach hvalid.1
      exact ⟨r, r', b, rfl, heq, fun _ => hr⟩
    · intro hinvalid
      obtain ⟨e, rfl⟩ := exists_threw (r := r)
        (fun h => hinvalid ⟨hok h, fun _ => haddress⟩) (fun h => hno ⟨haddress, hwrong.mp h⟩)
      exact ⟨e, b, rfl⟩

end Result

/-- On an arena whose file calls do not fail, for every batch and buffer: a valid
batch does what its spans do one by one and any other throws, exactly where the
batch does not slip through the tests. -/
theorem batchedSpans (a : Arena) (hf : a.faults = []) (hpos : 0 < a.slotBytes)
    (hidle : ∀ n < a.slotCount, a.overlayValid n ≠ .initializing) (buf : Buffer)
    (hsmall : buf.memory.length < 2 ^ 64) (spans : List NvmeIoSpan) :
    (ReadAgrees a buf spans ↔ ¬ ReadSlips a buf spans) ∧
      (WriteAgrees a buf spans ↔ ¬ WriteSlips a buf spans) :=
  ⟨readAgrees_iff hf hsmall, writeAgrees_iff hf hpos hidle hsmall⟩

/-- An arena of one slot of one byte, with an overlay that has no record. -/
def oneSlot : Arena where
  slotBytes := 1
  slotCount := 1
  readOnly := true
  base := ⟨1, fun _ => 7⟩
  direct := false
  overlay := some ⟨0, fun _ => 0⟩
  overlayValid := fun _ => .base
  faults := []

/-- A read of slot 0 and then of slot -1: the lookahead indexes the states of the
slots at -1.  A read of slot 0 to the last place of the address space: the end of
its range wraps to zero and passes the test. -/
theorem batchedSpans_lookahead :
    (oneSlot.readSpans ⟨1, ⟨2, fun _ => 0⟩⟩ [⟨0, 0, 1⟩, ⟨-1, 0, 1⟩]).1 =
        .error (.indexedOutside (-1)) ∧
      (oneSlot.readSpans ⟨1, ⟨2, fun _ => 0⟩⟩ [⟨0, 2 ^ 64 - 1, 1⟩]).1 = .error .leftBuffer := by
  constructor
  · rfl
  · rfl

/-- An arena of four slots of two bytes. -/
def fourSlots : Arena where
  slotBytes := 2
  slotCount := 4
  readOnly := false
  base := ⟨8, fun i => UInt8.ofNat i⟩
  direct := false
  overlay := none
  overlayValid := fun _ => .base
  faults := []

/-- Two records that follow each other, and half of one that does not. -/
def twoGroups : List NvmeIoSpan := [⟨0, 0, 2⟩, ⟨1, 2, 2⟩, ⟨3, 5, 1⟩]

theorem valid_twoGroups (op : IoOp) :
    ∀ sp ∈ twoGroups, (fourSlots.batch ⟨1, ⟨6, fun _ => 9⟩⟩ op).Valid sp := by
  intro sp hsp
  simp only [twoGroups, List.mem_cons, List.not_mem_nil, or_false] at hsp
  rcases hsp with rfl | rfl | rfl
  all_goals
    simp only [Batch.Valid, Batch.HasSlot, Batch.InBuffer, Arena.batch, fourSlots]
    omega

/-- The first two spans are one positional call, the third is another; read or written, the
batch does what its spans do. -/
theorem batchedSpans_twoGroups :
    fourSlots.lookahead ⟨1, ⟨6, fun _ => 9⟩⟩ .read ⟨0, 0, 2⟩ 2 ⟨0, 0, 2⟩ [⟨1, 2, 2⟩, ⟨3, 5, 1⟩] =
        .ok (4, [⟨3, 5, 1⟩]) ∧
      ReadAgrees fourSlots ⟨1, ⟨6, fun _ => 9⟩⟩ twoGroups ∧
      WriteAgrees fourSlots ⟨1, ⟨6, fun _ => 9⟩⟩ twoGroups := by
  have hagree := batchedSpans fourSlots rfl (by decide) (fun n _ => by simp [fourSlots])
    ⟨1, ⟨6, fun _ => 9⟩⟩ (by decide) twoGroups
  refine ⟨rfl, hagree.1.mpr ?_, hagree.2.mpr ?_⟩
  · rintro ⟨-, hslips⟩
    exact Batch.not_slips_of_valid (valid_twoGroups .read) hslips
  · rintro ⟨-, hslips⟩
    exact Batch.not_slips_of_valid (valid_twoGroups .write) hslips.2

end Arena

end Qw3.Tier
