import PathSum.AnyMatrix.Arithmetic
import PathSum.Automaton.Basic

/-!
# Hidden Markov models

A model goes from state to state and shows a symbol in each. The weight of a sequence of symbols is
the sum over all sequences of states. Every step first weighs the symbol that the state shows and
then goes on to the next state, so one more state is visited than there are symbols.
-/

namespace PathSum

/-- A model that shows the symbols `σ`, with weights of type `α`. Of an emission matrix only the
diagonal is used; that there is nothing else in it is checked when the model is made. -/
structure HiddenMarkov (σ α : Type) where
  weights : Weights α
  size : Nat
  /-- The weight of going from one state to another. -/
  transition : Matrix α size size
  /-- For each symbol, on the diagonal, the weight of showing it in each state. -/
  emission : SymbolMap σ (Matrix α size size)
  initial : Vector α size
  /-- The weight of ending in each state, if it counts. -/
  final : Option (Vector α size)

namespace HiddenMarkov

variable {σ α : Type}

/-! ## Construction -/

/-- The first entry beside the diagonal that does not count as zero, row by row. -/
def offDiagonal? {n : Nat} (w : Weights α) (A : Matrix α n n) : Option (Fin n × Fin n) :=
  (List.finRange n).findSome? fun i => (List.finRange n).findSome? fun j =>
    if i = j || w.same (A.entry i j) w.zero then none else some (i, j)

/-- An emission matrix has the right size and is diagonal. -/
def checkEmission (w : Weights α) (n : Nat) (A : AnyMatrix α) :
    Except ShapeError (Matrix α n n) := do
  let M ← A.squareOf n .emissionMatrix
  match offDiagonal? w M with
  | none => return M
  | some (i, j) => throw (.notDiagonal i j)

/-- The model with the given matrices, if their sizes go together. The initial vector decides the
number of states. -/
def ofParts (weights : Weights α) (transition : AnyMatrix α) (emission : SymbolMap σ (AnyMatrix α))
    (initial : Array α) : Except ShapeError (HiddenMarkov σ α) := do
  let size := initial.size
  let transition ← transition.squareOf size .transitionMatrix
  let emission ← emission.tryMap (checkEmission weights size)
  return { weights, size, transition, emission, initial := initial.toVector, final := none }

def ofEmissionVectors (weights : Weights α) (transition : AnyMatrix α)
    (emission : SymbolMap σ (Array α)) (initial : Array α) :
    Except ShapeError (HiddenMarkov σ α) :=
  ofParts weights transition
    (emission.map fun v => .of (Matrix.diagonal weights v.toVector)) initial

/-- The model with weights of ending in each state. -/
def withFinal (H : HiddenMarkov σ α) (final : Array α) : Except ShapeError (HiddenMarkov σ α) :=
  (checkLength .finalWeights H.size final).map fun final => { H with final := some final }

/-! ## The forward pass -/

/-- Shows a symbol in the current state and goes on to the next. -/
def step (H : HiddenMarkov σ α) (v : Vector α H.size) (E : Matrix α H.size H.size) :
    Vector α H.size :=
  Matrix.vecMul H.weights (Vector.ofFn fun i => H.weights.mul (v.get i) (E.entry i i)) H.transition

/-- The weight of ending, given the weights of being in each state. -/
def finish (H : HiddenMarkov σ α) (v : Vector α H.size) : α :=
  match H.final with
  | some final => H.weights.dot v final
  | none => H.weights.sum v.toList

/-- The weight of a sequence of symbols. -/
def forward [DecidableEq σ] (H : HiddenMarkov σ α) (word : List σ) : Except (LookupError σ) α :=
  (word.foldlM (fun v symbol => (H.emission.lookup symbol).map (H.step v)) H.initial).map H.finish

end HiddenMarkov

end PathSum
