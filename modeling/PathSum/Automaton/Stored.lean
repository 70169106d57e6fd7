import PathSum.AnyMatrix.Unchecked
import PathSum.Automaton.Basic
import PathSum.Weights.Basic

/-!
# Automata as they are stored

An automaton is stored as a number of states, two arrays and matrices of any shape. Only `ofParts`
looks whether their sizes go together. The product does not look again, and neither does a run: both
read the entries that they need, and an entry that is not there ends them.

`WeightedAutomaton.stored` is how an automaton of known size is stored.
-/

namespace PathSum

/-- What ends a run early. An unknown symbol is an error that a caller is told about; reading an
entry that is not there ends the program. -/
inductive Fault (σ : Type) where
  /-- An entry that does not exist is read. -/
  | outOfRange (e : OutOfRange)
  | unknown (e : LookupError σ)
deriving DecidableEq

/-- No entry is missing. There is a result, and `P` holds of it, unless a symbol is unknown; then
that is reported. -/
def InRange {σ β : Type} (unknown : Option σ) (P : β → Prop) : Except (Fault σ) β → Prop
  | .ok b => unknown = none ∧ P b
  | .error (.unknown e) => unknown = some e.symbol
  | .error (.outOfRange _) => False

/-- The first symbol of a word that has no value. -/
def SymbolMap.unknown? {σ β : Type} [DecidableEq σ] (map : SymbolMap σ β) (word : List σ) :
    Option σ :=
  word.find? (· ∉ map.keys)

/-- Goes through a word with the values for its symbols, in steps that read entries. -/
def SymbolMap.pass {σ β γ : Type} [DecidableEq σ] (map : SymbolMap σ β)
    (step : γ → β → Except OutOfRange γ) (v : γ) (word : List σ) : Except (Fault σ) γ :=
  word.foldlM (fun v symbol => do
    let x ← (map.lookup symbol).mapError .unknown
    (step v x).mapError .outOfRange) v

/-- An automaton with vectors and matrices of any size. Its loops read entries without a look at the
sizes, so one that is not put together well would read past an end. -/
structure StoredAutomaton (σ α : Type) where
  weights : Weights α
  size : Nat
  initial : Array α
  final : Array α
  transitions : SymbolMap σ (AnyMatrix α)

namespace WeightedAutomaton

variable {σ α : Type}

/-- The automaton without what is known about its sizes. -/
@[reducible]
def stored (A : WeightedAutomaton σ α) : StoredAutomaton σ α where
  weights := A.weights
  size := A.size
  initial := A.initial.toArray
  final := A.final.toArray
  transitions := A.transitions.map .of

end WeightedAutomaton

namespace StoredAutomaton

variable {σ α : Type}

/-- The given parts, if their sizes go together. -/
def ofParts (weights : Weights α) (initial final : Array α)
    (transitions : SymbolMap σ (AnyMatrix α)) : Except ShapeError (StoredAutomaton σ α) := do
  let size := initial.size
  let _ ← checkLength .finalWeights size final
  let _ ← transitions.tryMap fun A => A.squareOf size .transitionMatrix
  return { weights, size, initial, final, transitions }

section
variable [DecidableEq σ]

def forward (A : StoredAutomaton σ α) (word : List σ) : Except (Fault σ) (Array α) :=
  A.transitions.pass (fun v M => M.vecMulUnchecked A.weights v) A.initial word

def run (A : StoredAutomaton σ α) (word : List σ) : Except (Fault σ) α :=
  (A.forward word).map fun v => A.weights.dotUnchecked v A.final

def accepts (A : StoredAutomaton σ Bool) (word : List σ) : Except (Fault σ) Bool :=
  A.run word

def activeStates (A : StoredAutomaton σ Bool) (word : List σ) : Except (Fault σ) StateSet :=
  (A.forward word).map fun v => StateSet.ofFlags v.toList

omit [DecidableEq σ] in
def acceptsEmpty (A : StoredAutomaton σ Bool) : Bool :=
  (StateSet.ofFlags A.initial.toList).intersects (StateSet.ofFlags A.final.toList)

/-- The matrix with which both automata together read a symbol. -/
def pairTransition (A B : StoredAutomaton σ α) (symbol : σ) : Except (Fault σ) (AnyMatrix α) := do
  let left ← (A.transitions.lookup symbol).mapError .unknown
  let right ← (B.transitions.lookup symbol).mapError .unknown
  (left.kronUnchecked A.weights right).mapError .outOfRange

/-- Gives one symbol after the other its matrix. -/
def pairTransitions (A B : StoredAutomaton σ α) (alphabet : List σ)
    (map : SymbolMap σ (AnyMatrix α)) : Except (Fault σ) (SymbolMap σ (AnyMatrix α)) :=
  alphabet.foldlM (fun map symbol => return map.insert symbol (← A.pairTransition B symbol)) map

/-- The product over an alphabet, put together without a look at the sizes. That they go together
again follows from those of the two automata. -/
def product (A B : StoredAutomaton σ α) (alphabet : List σ) :
    Except (Fault σ) (StoredAutomaton σ α) :=
  (A.pairTransitions B alphabet .empty).map fun transitions =>
    { weights := A.weights
      size := A.size * B.size
      initial := A.weights.kronVecOf A.initial B.initial
      final := A.weights.kronVecOf A.final B.final
      transitions }

end

end StoredAutomaton

end PathSum
