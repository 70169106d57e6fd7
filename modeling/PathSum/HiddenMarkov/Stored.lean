import PathSum.Automaton.Stored
import PathSum.HiddenMarkov.Basic

/-!
# Models as they are stored

A hidden Markov model is stored as a number of states, arrays and matrices of any shape. The ways to
make one look at all sizes, and the forward pass does not look at them again.

`HiddenMarkov.stored` is how a model of known size is stored.
-/

namespace PathSum

/-- A model with vectors and matrices of any size. -/
structure StoredModel (σ α : Type) where
  weights : Weights α
  size : Nat
  transition : AnyMatrix α
  emission : SymbolMap σ (AnyMatrix α)
  initial : Array α
  final : Option (Array α)

/-- The model without what is known about its sizes. -/
@[reducible]
def HiddenMarkov.stored {σ α : Type} (H : HiddenMarkov σ α) : StoredModel σ α where
  weights := H.weights
  size := H.size
  transition := .of H.transition
  emission := H.emission.map .of
  initial := H.initial.toArray
  final := H.final.map Vector.toArray

namespace StoredModel

variable {σ α : Type}

/-- The given parts, if their sizes go together and all emission matrices are diagonal. -/
def ofParts (weights : Weights α) (transition : AnyMatrix α) (emission : SymbolMap σ (AnyMatrix α))
    (initial : Array α) : Except ShapeError (StoredModel σ α) := do
  let size := initial.size
  let _ ← transition.squareOf size .transitionMatrix
  let _ ← emission.tryMap (HiddenMarkov.checkEmission weights size)
  return { weights, size, transition, emission, initial, final := none }

def ofEmissionVectors (weights : Weights α) (transition : AnyMatrix α)
    (emission : SymbolMap σ (Array α)) (initial : Array α) : Except ShapeError (StoredModel σ α) :=
  ofParts weights transition
    (emission.map fun v => .of (Matrix.diagonal weights v.toVector)) initial

def withFinal (H : StoredModel σ α) (final : Array α) : Except ShapeError (StoredModel σ α) := do
  let _ ← checkLength .finalWeights H.size final
  return { H with final := some final }

/-- Weighs the symbol by the diagonal of its matrix and goes on to the next state. -/
def step (H : StoredModel σ α) (v : Array α) (E : AnyMatrix α) : Except OutOfRange (Array α) := do
  let shown ← E.scaleUnchecked H.weights v
  H.transition.vecMulUnchecked H.weights shown

def finish (H : StoredModel σ α) (v : Array α) : α :=
  match H.final with
  | some final => H.weights.dotUnchecked v final
  | none => H.weights.sum v.toList

def forward [DecidableEq σ] (H : StoredModel σ α) (word : List σ) : Except (Fault σ) α :=
  (H.emission.pass H.step H.initial word).map H.finish

end StoredModel

end PathSum
