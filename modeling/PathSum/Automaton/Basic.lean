import PathSum.AnyMatrix.Arithmetic
import PathSum.StateSet
import PathSum.SymbolMap
import PathSum.Text.Quoted

/-!
# Weighted automata

An automaton gives every word a weight: the sum over all sequences of states of the product of the
weights met on the way. It is run forward, by carrying the weight of each state from one symbol to
the next.

* `ofParts`: the automaton with given vectors and matrices, whose sizes have to go together.
* `forward`, `run`: the weights of the states after a word, and the weight of the word.
* `product`: two automata that read the same word together. A state of the product is a pair of
  states, numbered as `Index.pair` does, and its weights are the products of theirs.
* `accepts`, `activeStates`: with Boolean weights an automaton accepts some words, and after every
  word it may be in some states.
-/

namespace PathSum

/-- A symbol for which there is no matrix. -/
structure LookupError (σ : Type) where
  symbol : σ
deriving DecidableEq

def LookupError.message {σ : Type} [Symbol σ] (e : LookupError σ) : String :=
  "no transition matrix for symbol " ++ Symbol.quoted e.symbol

/-- An automaton over the symbols `σ` with weights of type `α`. All vectors and matrices are of its
size, so none of the passes over them has to check a length. -/
structure WeightedAutomaton (σ α : Type) where
  weights : Weights α
  size : Nat
  /-- The weight of starting in each state. -/
  initial : Vector α size
  /-- The weight of ending in each state. -/
  final : Vector α size
  /-- For each symbol, the weight of going from one state to another. -/
  transitions : SymbolMap σ (Matrix α size size)

/-- The value for a symbol, or the error that names it. All passes over a word go through this, so
no other error can come up in one. -/
def SymbolMap.lookup {σ β : Type} [DecidableEq σ] (map : SymbolMap σ β) (symbol : σ) :
    Except (LookupError σ) β :=
  match map.get? symbol with
  | some value => .ok value
  | none => .error ⟨symbol⟩

theorem SymbolMap.lookup_map {σ β γ : Type} [DecidableEq σ] (f : β → γ) (map : SymbolMap σ β)
    (symbol : σ) : (map.map f).lookup symbol = (map.lookup symbol).map f := by
  rw [lookup, lookup, get?_map]
  cases map.get? symbol <;> rfl

namespace WeightedAutomaton

variable {σ α : Type}

/-! ## Construction -/

/-- The automaton with the given vectors and matrices, if their sizes go together. The initial
vector decides the number of states. -/
def ofParts (weights : Weights α) (initial final : Array α)
    (transitions : SymbolMap σ (AnyMatrix α)) : Except ShapeError (WeightedAutomaton σ α) := do
  let size := initial.size
  let final ← checkLength .finalWeights size final
  let transitions ← transitions.tryMap fun A => A.squareOf size .transitionMatrix
  return { weights, size, initial := initial.toVector, final, transitions }

/-- Parts of one size go together, and the automaton is made of them. Nothing is computed, so they
can be read off the automaton again. -/
theorem ofParts_eq_ok {n : Nat} (weights : Weights α) (initial final : Vector α n)
    (transitions : SymbolMap σ (Matrix α n n)) :
    ofParts weights initial.toArray final.toArray (transitions.map AnyMatrix.of) =
      .ok { weights, size := n, initial, final, transitions } := by
  obtain ⟨initial, rfl⟩ := initial
  obtain ⟨final, hfinal⟩ := final
  have hsquare : (transitions.map AnyMatrix.of).tryMap
      (fun A => A.squareOf initial.size .transitionMatrix) = .ok (transitions.map id) :=
    SymbolMap.tryMap_map_eq_ok (fun A => AnyMatrix.squareOf_of A _) transitions
  have hid : transitions.map id = transitions := by simp [SymbolMap.map]
  rw [ofParts, hsquare, hid]
  simp only [checkLength, hfinal, dite_true]
  rfl

section
variable [DecidableEq σ]

/-! ## The forward pass -/

/-- Carries weights of states along a word. -/
def forwardFrom (A : WeightedAutomaton σ α) (v : Vector α A.size) (word : List σ) :
    Except (LookupError σ) (Vector α A.size) :=
  word.foldlM (fun v symbol => (A.transitions.lookup symbol).map (Matrix.vecMul A.weights v)) v

/-- The weight of reading a word and being in each state. -/
def forward (A : WeightedAutomaton σ α) (word : List σ) :
    Except (LookupError σ) (Vector α A.size) :=
  A.forwardFrom A.initial word

/-- The weight of a word. -/
def run (A : WeightedAutomaton σ α) (word : List σ) : Except (LookupError σ) α :=
  (A.forward word).map fun v => A.weights.dot v A.final

@[simp]
theorem forwardFrom_nil (A : WeightedAutomaton σ α) (v : Vector α A.size) :
    A.forwardFrom v [] = .ok v := rfl

theorem forwardFrom_cons (A : WeightedAutomaton σ α) (v : Vector α A.size) (symbol : σ)
    (word : List σ) :
    A.forwardFrom v (symbol :: word) =
      match A.transitions.lookup symbol with
      | .ok M => A.forwardFrom (Matrix.vecMul A.weights v M) word
      | .error e => .error e := by
  rw [forwardFrom, List.foldlM_cons]
  cases A.transitions.lookup symbol <;> rfl

/-! ## Synchronised products -/

/-- The matrix with which both automata together read a symbol. -/
def pairTransition (A B : WeightedAutomaton σ α) (symbol : σ) :
    Except (LookupError σ) (Matrix α (A.size * B.size) (A.size * B.size)) := do
  let left ← A.transitions.lookup symbol
  let right ← B.transitions.lookup symbol
  return left.kron A.weights right

/-- The product over an alphabet, of which both automata have to know every symbol. The weights are
those of the first automaton. -/
def product (A B : WeightedAutomaton σ α) (alphabet : List σ) :
    Except (LookupError σ) (WeightedAutomaton σ α) := do
  let transitions ← alphabet.foldlM
    (fun map symbol => return map.insert symbol (← A.pairTransition B symbol)) SymbolMap.empty
  return {
    weights := A.weights
    size := A.size * B.size
    initial := A.weights.kronVec A.initial B.initial
    final := A.weights.kronVec A.final B.final
    transitions }

/-! ## Acceptance -/

def accepts (A : WeightedAutomaton σ Bool) (word : List σ) : Except (LookupError σ) Bool :=
  A.run word

/-- The states that the automaton may be in after a word. -/
def activeStates (A : WeightedAutomaton σ Bool) (word : List σ) :
    Except (LookupError σ) StateSet :=
  (A.forward word).map fun v => StateSet.ofFlags v.toList

end

/-- Whether the empty word is accepted: some state can be both the first and the last. -/
def acceptsEmpty (A : WeightedAutomaton σ Bool) : Bool :=
  (StateSet.ofFlags A.initial.toList).intersects (StateSet.ofFlags A.final.toList)

end WeightedAutomaton

end PathSum
