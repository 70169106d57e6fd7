import PathSum.Automaton.Basic
import PathSum.Graph.Relations
import PathSum.Graph.Walks
import PathSum.Regex.Nfa
import PathSum.Regex.Reader

/-!
# Compiled patterns

A pattern is compiled to an automaton without silent edges: silent edges before, between and after
the symbols of a word are all put into the matrices. That is done twice: with matrices of known
shape, where the products are put together a row at a time, and with checks of all shapes, where
they are products of matrices.
-/

namespace PathSum.Regex

namespace Nfa

/-- The states that silent edges lead to, every state itself included. -/
def silentClosure (nfa : Nfa) : Matrix Bool nfa.size nfa.size :=
  Graph.transitiveClosure nfa.silent true

/-- The vector that marks one state. -/
def unit {n : Nat} (state : Fin n) : Vector Bool n :=
  Vector.ofFn fun i => decide (i = state)

/-- The automaton with the same states that has no silent edges. -/
@[reducible]
def withoutSilent (nfa : Nfa) : WeightedAutomaton Char Bool :=
  let closure := nfa.silentClosure
  { weights := .boolean
    size := nfa.size
    initial := Matrix.vecMul .boolean (unit nfa.start) closure
    final := closure.mulVec .boolean (unit nfa.accept)
    transitions := nfa.labelled.map fun A => Graph.compose (Graph.compose closure A) closure }

/-- The automaton without silent edges, from matrices whose shapes are checked as they are used. -/
def removeSilent (nfa : Nfa) : Except ShapeError (WeightedAutomaton Char Bool) := do
  let closure ← (AnyMatrix.of nfa.silent).transitiveClosure true
  let transitions ← nfa.labelled.tryMap fun A => do
    let left ← closure.mul .boolean (.of A)
    left.mul .boolean closure
  let initial ← AnyMatrix.vecMul .boolean (unit nfa.start).toArray closure
  let final ← closure.mulVec .boolean (unit nfa.accept).toArray
  WeightedAutomaton.ofParts .boolean initial final transitions

end Nfa

def compile (limit : Nat) (alphabet : Alphabet Char) (pattern : String) :
    Except ParseError (WeightedAutomaton Char Bool) :=
  (Pattern.parse limit pattern).map fun p => (Nfa.ofPattern alphabet p).withoutSilent

theorem compile_eq_ok {limit : Nat} {alphabet : Alphabet Char} {pattern : String} {p : Pattern}
    (h : Pattern.parse limit pattern = .ok p) :
    compile limit alphabet pattern = .ok (Nfa.ofPattern alphabet p).withoutSilent := by
  rw [compile, h]
  rfl

/-- A pattern together with its automaton. -/
structure Compiled where
  pattern : String
  automaton : WeightedAutomaton Char Bool

namespace Compiled

def ofPattern (limit : Nat) (alphabet : Alphabet Char) (pattern : String) :
    Except ParseError Compiled :=
  (compile limit alphabet pattern).map fun automaton => { pattern, automaton }

/-- Whether the whole text matches. -/
def isMatch (regex : Compiled) (text : String) : Except (LookupError Char) Bool :=
  regex.automaton.accepts text.toList

end Compiled

end PathSum.Regex
