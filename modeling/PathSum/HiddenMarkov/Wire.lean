import PathSum.AnyMatrix.Wire
import PathSum.HiddenMarkov.Basic

/-!
# Automata and models in JSON

An automaton or a model is written as an object with its weights, its number of states, its vectors
and its matrices. The matrices of symbols are an object themselves, with a member for each symbol in
the order of the map.
-/

namespace PathSum

open Json

variable {σ α : Type} [Symbol σ] [Encoding α]

/-- The matrices of symbols as an object with a member for each symbol. -/
def SymbolMap.toJson {m n : Nat} (map : SymbolMap σ (Matrix α m n)) : Value :=
  .object (map.entries.map fun (symbol, A) => (some (Symbol.key symbol), (AnyMatrix.of A).toJson))

def WeightedAutomaton.toJson (A : WeightedAutomaton σ α) : Value :=
  .object [
    (some "semiring", ofWeights A.weights),
    (some "n", .ofInt A.size),
    (some "init", .ofList A.initial.toList),
    (some "final", .ofList A.final.toList),
    (some "delta", A.transitions.toJson)]

def HiddenMarkov.toJson (H : HiddenMarkov σ α) : Value :=
  .object [
    (some "semiring", ofWeights H.weights),
    (some "n", .ofInt H.size),
    (some "transition", (AnyMatrix.of H.transition).toJson),
    (some "emission", H.emission.toJson),
    (some "initial", .ofList H.initial.toList),
    (some "final_weights", match H.final with
      | some final => .ofList final.toList
      | none => .null)]

end PathSum
