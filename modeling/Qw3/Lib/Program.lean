import Mathlib.Data.Nat.Notation
import Mathlib.Logic.Basic

/-!
# Programs that may leave early, and their rules

A program runs on a state, and either returns or leaves early; what it did to
the state stays.

* `Program.Triple P x Q E` — run where `P` holds, the program returns with `Q`
  or leaves with `E`.
* `Triple.bind`, `Triple.ite`, `Triple.forM`, `Triple.tryCatch` — one rule for
  each way to compose programs; `Triple.forM_done`, the loop with an invariant that
  counts what is done.
* `Program.loop` — a step that is repeated as long as it asks for it;
  `Triple.loop`, the rule with a measure that each repeated step takes down, and
  `Triple.loop_forever`, the one without.
-/

universe u

/-- A program over states `σ` that returns `α` or leaves with `ε`. -/
abbrev Program (σ ε α : Type u) := ExceptT ε (StateM σ) α

namespace Program

variable {σ ε ε' α β : Type u}

/-- Run a program on a state. -/
def exec (x : Program σ ε α) (s : σ) : Except ε α × σ := x s

theorem exec_bind (x : Program σ ε α) (f : α → Program σ ε β) (s : σ) :
    (x >>= f).exec s = match x.exec s with
      | (.ok a, t) => (f a).exec t
      | (.error e, t) => (.error e, t) := by
  unfold exec
  simp only [Bind.bind, ExceptT.bind, ExceptT.mk, StateT.bind]
  cases x s with
  | mk r t => cases r <;> rfl

theorem exec_forM_cons (f : α → Program σ ε PUnit) (a : α) (l : List α) (s : σ) :
    ((a :: l).forM f).exec s = match (f a).exec s with
      | (.ok _, t) => (l.forM f).exec t
      | (.error e, t) => (.error e, t) := by
  change exec (f a >>= fun _ => l.forM f) s = _
  rw [exec_bind]
  cases (f a).exec s with
  | mk r t => cases r <;> rfl

theorem exec_tryCatch (x : Program σ ε α) (handle : ε → Program σ ε α) (s : σ) :
    (tryCatch x handle : Program σ ε α).exec s = match x.exec s with
      | (.ok a, t) => (.ok a, t)
      | (.error e, t) => (handle e).exec t := by
  unfold exec
  simp only [MonadExcept.tryCatch, tryCatchThe, MonadExceptOf.tryCatch, ExceptT.tryCatch,
    ExceptT.mk, Bind.bind, StateT.bind]
  cases x s with
  | mk r t => cases r <;> rfl

/-- From `P`, the program returns with `Q` or leaves with `E`. -/
def Triple (P : σ → Prop) (x : Program σ ε α) (Q : α → σ → Prop) (E : ε → σ → Prop) : Prop :=
  ∀ s, P s → match x.exec s with
    | (.ok a, t) => Q a t
    | (.error e, t) => E e t

namespace Triple

variable {P P' : σ → Prop} {x : Program σ ε α} {Q Q' : α → σ → Prop} {E E' F : ε → σ → Prop}

theorem conseq (h : Triple P x Q E) (hP : ∀ s, P' s → P s) (hQ : ∀ a s, Q a s → Q' a s)
    (hE : ∀ e s, E e s → E' e s) : Triple P' x Q' E' := by
  intro s hs
  have hx := h s (hP s hs)
  revert hx
  cases x.exec s with
  | mk r t =>
      cases r with
      | ok a => exact hQ a t
      | error e => exact hE e t

theorem pre (h : Triple P x Q E) (hP : ∀ s, P' s → P s) : Triple P' x Q E :=
  h.conseq hP (fun _ _ hq => hq) fun _ _ he => he

theorem post (h : Triple P x Q E) (hQ : ∀ a s, Q a s → Q' a s) : Triple P x Q' E :=
  h.conseq (fun _ hp => hp) hQ fun _ _ he => he

theorem pure {a : α} (h : ∀ s, P s → Q a s) : Triple P (Pure.pure a : Program σ ε α) Q E :=
  fun s hs => h s hs

theorem throw {e : ε} (h : ∀ s, P s → E e s) : Triple P (throw e : Program σ ε α) Q E :=
  fun s hs => h s hs

theorem modify {f : σ → σ} {Q : PUnit → σ → Prop} (h : ∀ s, P s → Q ⟨⟩ (f s)) :
    Triple P (modify f : Program σ ε PUnit) Q E :=
  fun s hs => h s hs

/-- What a function of the state is beforehand may be fixed. -/
theorem ghost {γ : Type*} (f : σ → γ) (h : ∀ g, Triple (fun s => f s = g ∧ P s) x Q E) :
    Triple P x Q E :=
  fun s hs => h (f s) s ⟨rfl, hs⟩

theorem bind {f : α → Program σ ε β} {R : β → σ → Prop} (hx : Triple P x Q E)
    (hf : ∀ a, Triple (Q a) (f a) R E) : Triple P (x >>= f) R E := by
  intro s hs
  have h := hx s hs
  rw [exec_bind]
  revert h
  cases x.exec s with
  | mk r t =>
      cases r with
      | ok a => exact hf a t
      | error e => exact fun he => he

/-- What comes first is read off the state. -/
theorem bind_get {f : σ → Program σ ε β} {R : β → σ → Prop}
    (h : ∀ s, P s → Triple (fun t => t = s) (f s) R E) :
    Triple P (MonadState.get >>= f) R E :=
  fun s hs => h s hs s rfl

theorem ite {c : Prop} [Decidable c] {y : Program σ ε α}
    (ht : c → Triple P x Q E) (hf : ¬ c → Triple P y Q E) :
    Triple P (if c then x else y) Q E := by
  split
  · exact ht ‹_›
  · exact hf ‹_›

/-- A loop over a list keeps its invariant. -/
theorem forM {I : σ → Prop} {f : α → Program σ ε PUnit} (l : List α)
    (h : ∀ a ∈ l, Triple I (f a) (fun _ => I) E) :
    Triple I (l.forM f) (fun _ => I) E := by
  induction l with
  | nil => exact pure fun _ hs => hs
  | cons a l ih =>
      exact bind (h a List.mem_cons_self) fun _ => ih fun b hb => h b (List.mem_cons_of_mem a hb)

/-- A loop over a list whose invariant counts the elements that are done. -/
theorem forM_done {I : List α → σ → Prop} {f : α → Program σ ε PUnit} (l : List α)
    (h : ∀ done, ∀ a ∈ l, Triple (I done) (f a) (fun _ => I (done ++ [a])) E) (done : List α) :
    Triple (I done) (l.forM f) (fun _ => I (done ++ l)) E := by
  induction l generalizing done with
  | nil =>
      rw [List.append_nil]
      exact pure fun _ hs => hs
  | cons a l ih =>
      refine bind (h done a List.mem_cons_self) fun _ => ?_
      have hrest := ih (fun done b hb => h done b (List.mem_cons_of_mem a hb)) (done ++ [a])
      rwa [List.append_assoc, List.singleton_append] at hrest

/-- What leaves a `try` block is handled where it left. -/
theorem tryCatch {handle : ε → Program σ ε α} (hx : Triple P x Q F)
    (hh : ∀ e, Triple (F e) (handle e) Q E) : Triple P (tryCatch x handle) Q E := by
  intro s hs
  have h := hx s hs
  rw [exec_tryCatch]
  revert h
  cases x.exec s with
  | mk r t =>
      cases r with
      | ok a => exact fun hq => hq
      | error e => exact hh e t

end Triple

/-! ## Loops -/

section Loops

variable {σ ε : Type}

/-- A step that is repeated for as long as it returns `true`.  A loop that takes
more than `fuel` steps leaves with `out`. -/
def loop (out : ε) (step : Program σ ε Bool) : ℕ → Program σ ε Unit
  | 0 => throw out
  | fuel + 1 => do
      if ← step then loop out step fuel else pure ()

/-- A loop whose every repeated step takes a measure down is done within as many
steps, and leaves with nothing that its steps do not leave with. -/
theorem Triple.loop {I Q : σ → Prop} {E : ε → σ → Prop} {m : σ → ℕ} {step : Program σ ε Bool}
    (hstep : ∀ k, Triple (fun s => I s ∧ m s = k) step
      (fun again s => if again then I s ∧ m s < k else Q s) E) (out : ε) (fuel : ℕ) :
    Triple (fun s => I s ∧ m s < fuel) (loop out step fuel) (fun _ => Q) E := by
  induction fuel with
  | zero =>
      intro s hs
      exact absurd hs.2 (Nat.not_lt_zero _)
  | succ fuel ih =>
      refine .ghost m fun k => ?_
      intro s hs
      -- The measure at the start is the fuel at most, so what is left of it is enough.
      have hk : k ≤ fuel := hs.1 ▸ Nat.le_of_lt_succ hs.2.2
      refine Triple.bind (hstep k) ?_ s ⟨hs.2.1, hs.1⟩
      intro again
      cases again with
      | true => exact ih.pre fun t ht => ⟨ht.1, Nat.lt_of_lt_of_le ht.2 hk⟩
      | false => exact pure fun t ht => ht

/-- A loop keeps the invariant of its step, as far as it comes. -/
theorem Triple.loop_forever {I Q : σ → Prop} {E : ε → σ → Prop} {step : Program σ ε Bool}
    (hstep : Triple I step (fun again s => if again then I s else Q s) E) {out : ε}
    (hout : ∀ s, I s → E out s) (fuel : ℕ) : Triple I (Program.loop out step fuel) (fun _ => Q) E := by
  induction fuel with
  | zero => exact throw hout
  | succ fuel ih =>
      refine Triple.bind hstep fun again => ?_
      cases again with
      | true => exact ih
      | false => exact pure fun t ht => ht

end Loops

end Program
