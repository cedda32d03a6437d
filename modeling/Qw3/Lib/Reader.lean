import Mathlib.Data.List.Basic
import Mathlib.Tactic.Common

/-!
# Readers and the formats they read

A reader is a program on an input; it returns a value, or throws.

* `Input` — what of a state is still to be read, and which errors are rejections
  of the input (and not, say, an access outside of it).
* `Reads I n E r` — on inputs of at most `n` symbols, the reader `r` returns
  exactly the values that the format `E` writes there, and rejects the rest.
* `Reads.pure`, `Reads.bind`, `Reads.throwIf`, `Reads.times` — one rule for each
  way to compose readers.
* `Reads.unique` — an input is read in one way.
-/

universe u v

/-- A reader that counts on `n` values. -/
def times {σ ε α : Type} (r : StateT σ (Except ε) α) : ℕ → StateT σ (Except ε) (List α)
  | 0 => pure []
  | n + 1 => do
      let a ← r
      let rest ← times r n
      return a :: rest

/-- What the readers run on. -/
structure Input (σ ε : Type) (β : Type u) where
  rest : σ → List β
  Valid : σ → Prop
  Rejects : ε → Prop

/-- One value after another, each in its format. -/
inductive Listed {α : Type} {β : Type u} (E : α → List β → Prop) : List α → List β → Prop
  | nil : Listed E [] []
  | cons {a as b bs} (head : E a b) (tail : Listed E as bs) : Listed E (a :: as) (b ++ bs)

theorem Listed.imp {α : Type} {β : Type u} {E E' : α → List β → Prop} {as : List α} {b : List β}
    (h : Listed E as b) (hE : ∀ a ∈ as, ∀ b, E a b → E' a b) : Listed E' as b := by
  induction h with
  | nil => exact .nil
  | cons head tail ih =>
      obtain ⟨hhead, htail⟩ := List.forall_mem_cons.mp hE
      exact .cons (hhead _ head) (ih htail)

theorem Listed.exists_of_mem {α : Type} {β : Type u} {E : α → List β → Prop} {as : List α}
    {b : List β} (h : Listed E as b) : ∀ a ∈ as, ∃ b, E a b := by
  induction h with
  | nil => exact fun a ha => absurd ha List.not_mem_nil
  | cons head tail ih => exact List.forall_mem_cons.mpr ⟨⟨_, head⟩, ih⟩

variable {σ ε α γ : Type} {β : Type u}

/-- A reader of a format, on inputs of at most `n` symbols. -/
structure Reads (I : Input σ ε β) (n : ℕ) (E : α → List β → Prop)
    (r : StateT σ (Except ε) α) : Prop where
  sound : ∀ s, I.Valid s → (I.rest s).length ≤ n →
    (∃ e, I.Rejects e ∧ r.run s = .error e) ∨
      ∃ a b s', r.run s = .ok (a, s') ∧ I.Valid s' ∧ E a b ∧ I.rest s = b ++ I.rest s'
  complete : ∀ s a b t, I.Valid s → (I.rest s).length ≤ n → E a b → I.rest s = b ++ t →
    ∃ s', r.run s = .ok (a, s') ∧ I.Valid s' ∧ I.rest s' = t

namespace Reads

variable {I : Input σ ε β} {n m k : ℕ} {E E' : α → List β → Prop} {F : α → γ → List β → Prop}
  {r : StateT σ (Except ε) α} {f : α → StateT σ (Except ε) γ}

/-- Two formats that write the same. -/
theorem congr (h : Reads I n E r) (hE : ∀ a b, b.length ≤ n → (E a b ↔ E' a b)) :
    Reads I n E' r where
  sound s hs hlen := by
    rcases h.sound s hs hlen with hbad | ⟨a, b, s', hrun, hvalid, ha, hrest⟩
    · exact Or.inl hbad
    · refine Or.inr ⟨a, b, s', hrun, hvalid, (hE a b ?_).mp ha, hrest⟩
      rw [hrest, List.length_append] at hlen
      omega
  complete s a b t hs hlen ha hrest := by
    refine h.complete s a b t hs hlen ((hE a b ?_).mpr ha) hrest
    rw [hrest, List.length_append] at hlen
    omega

theorem pure (a : α) : Reads I n (fun x b => x = a ∧ b = []) (pure a) where
  sound s hs _ := Or.inr ⟨a, [], s, rfl, hs, ⟨rfl, rfl⟩, rfl⟩
  complete := by
    rintro s _ _ t hs - ⟨rfl, rfl⟩ hrest
    exact ⟨s, rfl, hs, hrest⟩

/-- A check that reads nothing. -/
theorem throwIf (bad : Prop) [Decidable bad] {e : ε} (he : I.Rejects e) :
    Reads I n (fun (_ : Unit) b => ¬ bad ∧ b = [])
      (if bad then throw e else Pure.pure () : StateT σ (Except ε) Unit) where
  sound s hs _ := by
    split_ifs with hbad
    · exact Or.inl ⟨e, he, rfl⟩
    · exact Or.inr ⟨(), [], s, rfl, hs, ⟨hbad, rfl⟩, rfl⟩
  complete := by
    rintro s _ _ t hs - ⟨hbad, rfl⟩ hrest
    rw [if_neg hbad]
    exact ⟨s, rfl, hs, hrest⟩

/-- One reader after the other, where the first reads at least `k` symbols. -/
theorem bind (hk : ∀ a b, E a b → k ≤ b.length) (hr : Reads I n E r)
    (hf : k ≤ n → ∀ a, Reads I (n - k) (F a) (f a)) :
    Reads I n (fun c b => ∃ a b₁ b₂, E a b₁ ∧ F a c b₂ ∧ b = b₁ ++ b₂) (r >>= f) where
  sound s hs hlen := by
    have hrun : (r >>= f).run s = (r.run s).bind fun p => (f p.1).run p.2 := rfl
    rw [hrun]
    rcases hr.sound s hs hlen with ⟨e, he, hbad⟩ | ⟨a, b₁, s₁, hok, hvalid, ha, hrest⟩
    · exact Or.inl ⟨e, he, by rw [hbad]; rfl⟩
    · have hlong := hk a b₁ ha
      rw [hrest, List.length_append] at hlen
      rw [hok]
      rcases (hf (by omega) a).sound s₁ hvalid (by omega) with
        ⟨e, he, hbad⟩ | ⟨c, b₂, s₂, hok₂, hvalid₂, hc, hrest₂⟩
      · exact Or.inl ⟨e, he, hbad⟩
      · refine Or.inr ⟨c, b₁ ++ b₂, s₂, hok₂, hvalid₂, ⟨a, b₁, b₂, ha, hc, rfl⟩, ?_⟩
        rw [hrest, hrest₂, List.append_assoc]
  complete := by
    rintro s c _ t hs hlen ⟨a, b₁, b₂, ha, hc, rfl⟩ hrest
    have hrun : (r >>= f).run s = (r.run s).bind fun p => (f p.1).run p.2 := rfl
    have hlong := hk a b₁ ha
    rw [List.append_assoc] at hrest
    obtain ⟨s₁, hok, hvalid, hrest₁⟩ := hr.complete s a b₁ (b₂ ++ t) hs hlen ha hrest
    have hlen₁ : (I.rest s₁).length ≤ n - k := by
      rw [hrest, List.length_append, ← hrest₁] at hlen
      omega
    rw [hrest, List.length_append] at hlen
    obtain ⟨s₂, hok₂, hvalid₂, hrest₂⟩ := (hf (by omega) a).complete s₁ c b₂ t hvalid hlen₁ hc hrest₁
    refine ⟨s₂, ?_, hvalid₂, hrest₂⟩
    rw [hrun, hok]
    exact hok₂

/-- One reader after the other. -/
theorem andThen (hr : Reads I n E r) (hf : ∀ a, Reads I n (F a) (f a)) :
    Reads I n (fun c b => ∃ a b₁ b₂, E a b₁ ∧ F a c b₂ ∧ b = b₁ ++ b₂) (r >>= f) :=
  bind (fun _ _ _ => Nat.zero_le _) hr fun _ => hf

/-- A reader whose result is made of what was read. -/
theorem map (hr : Reads I n E r) (g : α → γ) :
    Reads I n (fun c b => ∃ a, E a b ∧ c = g a) (do let a ← r; return g a) := by
  refine (hr.andThen fun a => pure (g a)).congr ?_
  intro c b _
  constructor
  · rintro ⟨a, b₁, b₂, ha, ⟨rfl, rfl⟩, rfl⟩
    exact ⟨a, by rwa [List.append_nil], rfl⟩
  · rintro ⟨a, ha, rfl⟩
    exact ⟨a, b, [], ha, ⟨rfl, rfl⟩, (List.append_nil b).symm⟩

/-- A loop over a number of values. -/
theorem times (hr : Reads I n E r) (count : ℕ) :
    Reads I n (fun as b => as.length = count ∧ Listed E as b) (times r count) := by
  induction count with
  | zero =>
      refine (pure []).congr ?_
      intro as b _
      constructor
      · rintro ⟨rfl, rfl⟩
        exact ⟨rfl, .nil⟩
      · rintro ⟨hlen, h⟩
        cases h with
        | nil => exact ⟨rfl, rfl⟩
        | cons => exact absurd hlen (Nat.succ_ne_zero _)
  | succ count ih =>
      refine (hr.andThen fun a => ih.map fun rest => a :: rest).congr ?_
      intro as b _
      constructor
      · rintro ⟨a, b₁, b₂, ha, ⟨rest, ⟨hlen, hrest⟩, rfl⟩, rfl⟩
        exact ⟨by rw [List.length_cons, hlen], .cons ha hrest⟩
      · rintro ⟨hlen, h⟩
        cases h with
        | nil => exact absurd hlen.symm (Nat.succ_ne_zero _)
        | @cons a rest b₁ b₂ ha hrest =>
            exact ⟨a, b₁, b₂, ha, ⟨rest, ⟨Nat.succ.inj hlen, hrest⟩, rfl⟩, rfl⟩

/-- An input is read in one way. -/
theorem unique (h : Reads I n E r) {s : σ} (hs : I.Valid s) (hlen : (I.rest s).length ≤ n)
    {a a' : α} {b b' t t' : List β} (ha : E a b) (hb : I.rest s = b ++ t) (ha' : E a' b')
    (hb' : I.rest s = b' ++ t') : a = a' ∧ b = b' := by
  obtain ⟨s₁, hrun, -, ht⟩ := h.complete s a b t hs hlen ha hb
  obtain ⟨s₂, hrun', -, ht'⟩ := h.complete s a' b' t' hs hlen ha' hb'
  obtain ⟨rfl, rfl⟩ := Prod.mk.inj (Except.ok.inj (hrun.symm.trans hrun'))
  refine ⟨rfl, ?_⟩
  rw [← ht, hb'] at hb
  rw [← ht'] at hb
  exact (List.append_cancel_right hb).symm

end Reads
