import PathSum.HiddenMarkov.Basic

/-!
# Flaws of the parts of a model

What is wrong with matrices of which no hidden Markov model is made. The transition matrix counts
before the emission matrices, and these count in the order of the map. Of one matrix, that it is not
square counts before its size, and its size before its entries, which count row by row.

Main definition: `HiddenMarkov.Flaw`, the error for the first thing that is wrong. Nothing here says
in which order a matrix is looked through.
-/

namespace PathSum.HiddenMarkov

variable {σ α : Type}

/-- What is wrong with the shape of a matrix that should have `n` rows and `n` columns. -/
inductive ShapeFlaw (what : Operand) (n : Nat) (A : AnyMatrix α) : ShapeError → Prop where
  | notSquare : A.rows ≠ A.cols → ShapeFlaw what n A (.notSquare ⟨A.rows, A.cols⟩)
  | wrongSize : A.rows = A.cols → A.rows ≠ n → ShapeFlaw what n A (.lengthMismatch what n A.rows)

/-- There is an entry beside the diagonal that does not count as zero. -/
def StrayAt (w : Weights α) (A : AnyMatrix α) (i j : Nat) : Prop :=
  i ≠ j ∧ ∃ x, A.get? i j = some x ∧ w.same x w.zero = false

/-- No such entry stands in a row above, or before it in its own row. -/
structure FirstStray (w : Weights α) (A : AnyMatrix α) (i j : Nat) : Prop where
  stray : StrayAt w A i j
  first : ∀ k l, StrayAt w A k l → i < k ∨ i = k ∧ j ≤ l

/-- The matrix can be the emission matrix of a symbol. -/
structure Admissible (w : Weights α) (n : Nat) (A : AnyMatrix α) : Prop where
  shape : A.shape = ⟨n, n⟩
  diagonal : ∀ i j, ¬ StrayAt w A i j

/-- What is wrong with an emission matrix. -/
inductive EmissionFlaw (w : Weights α) (n : Nat) (A : AnyMatrix α) : ShapeError → Prop where
  | shape {e : ShapeError} : ShapeFlaw .emissionMatrix n A e → EmissionFlaw w n A e
  | stray {i j : Nat} : A.shape = ⟨n, n⟩ → FirstStray w A i j →
      EmissionFlaw w n A (.notDiagonal i j)

/-- The first thing that is wrong with the matrices of a model with `n` states. The transition
matrix comes first, then the emission matrices in the order of their symbols; a flaw counts only if
everything before it is as it should be. -/
inductive Flaw (w : Weights α) (n : Nat) (transition : AnyMatrix α)
    (emission : SymbolMap σ (AnyMatrix α)) : ShapeError → Prop where
  | transition {e : ShapeError} :
      ShapeFlaw .transitionMatrix n transition e → Flaw w n transition emission e
  | emission {before after : List (σ × AnyMatrix α)} {symbol : σ} {A : AnyMatrix α}
      {e : ShapeError} :
      transition.shape = ⟨n, n⟩ → emission.entries = before ++ (symbol, A) :: after →
        (∀ entry ∈ before, Admissible w n entry.2) → EmissionFlaw w n A e →
          Flaw w n transition emission e

/-- What each state shows of the symbols: the diagonals of the emission matrices. -/
def shown (H : HiddenMarkov σ α) : SymbolMap σ (Array α) :=
  H.emission.map fun E => (Vector.ofFn fun i => E.entry i i).toArray

end PathSum.HiddenMarkov
