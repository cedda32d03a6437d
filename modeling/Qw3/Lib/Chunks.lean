import Mathlib.Data.List.Induction

/-!
# Machines that are fed in pieces

* `Chunks.pushAll` — push the pieces in turn, and put together what comes out.
* `pushAll_induction` — what every push keeps holds after any pieces.
-/

universe u v w

namespace Chunks

variable {σ : Type u} {ι : Type v} {β : Type w} (push : σ → ι → List β × σ)

/-- Push the pieces in turn: what came out, and the machine afterwards. -/
def pushAll (s : σ) : List ι → List β × σ
  | [] => ([], s)
  | piece :: pieces =>
      let first := push s piece
      let rest := pushAll first.2 pieces
      (first.1 ++ rest.1, rest.2)

variable {push} {s : σ} {pieces more : List ι}

@[simp] theorem pushAll_nil : pushAll push s [] = ([], s) := rfl

theorem pushAll_cons (piece : ι) : pushAll push s (piece :: pieces) =
    ((push s piece).1 ++ (pushAll push (push s piece).2 pieces).1,
      (pushAll push (push s piece).2 pieces).2) := rfl

theorem pushAll_append : pushAll push s (pieces ++ more) =
    ((pushAll push s pieces).1 ++ (pushAll push (pushAll push s pieces).2 more).1,
      (pushAll push (pushAll push s pieces).2 more).2) := by
  induction pieces generalizing s with
  | nil => rfl
  | cons piece pieces ih =>
      rw [List.cons_append, pushAll_cons, ih, pushAll_cons]
      simp only [List.append_assoc]

theorem pushAll_concat (piece : ι) : pushAll push s (pieces ++ [piece]) =
    ((pushAll push s pieces).1 ++ (push (pushAll push s pieces).2 piece).1,
      (push (pushAll push s pieces).2 piece).2) := by
  rw [pushAll_append, pushAll_cons]
  simp only [pushAll_nil, List.append_nil]

/-- What every push keeps, of the pieces, the output and the machine, holds
after any pieces. -/
theorem pushAll_induction {Inv : List ι → List β → σ → Prop} (hstart : Inv [] [] s)
    (hstep : ∀ pieces out t piece, Inv pieces out t →
      Inv (pieces ++ [piece]) (out ++ (push t piece).1) (push t piece).2)
    (pieces : List ι) : Inv pieces (pushAll push s pieces).1 (pushAll push s pieces).2 := by
  induction pieces using List.reverseRecOn with
  | nil => exact hstart
  | append_singleton pieces piece ih =>
      rw [pushAll_concat]
      exact hstep _ _ _ _ ih

end Chunks
