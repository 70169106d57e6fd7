import PathSum.Alphabet
import PathSum.Graph.Adjacency
import PathSum.Regex.Pattern
import PathSum.SymbolMap

/-!
# Automata of patterns

The automaton of a pattern is put together from fragments, one for each operator. A fragment has
one state to enter and one state to leave by; states are numbered in the order in which they are
made, and parts are joined by silent edges.

Main statement: the entry and the exit of a fragment are among its states (`lt_next_fragment`).
-/

namespace PathSum.Regex

/-- An automaton with silent edges, one start and one accepting state. Edges are kept as entries of
matrices, one for the silent edges and one for each symbol. -/
structure Nfa where
  size : Nat
  start : Fin size
  accept : Fin size
  /-- The edges that are followed without reading. -/
  silent : Matrix Bool size size
  /-- For each symbol, the edges that read it. -/
  labelled : SymbolMap Char (Matrix Bool size size)
  alphabet : Alphabet Char

/-! ## Fragments -/

/-- A part of an automaton. -/
structure Fragment where
  /-- The first number that is not used yet. -/
  next : Nat
  start : Nat
  accept : Nat
  silent : List (Nat × Nat)
  labelled : List (Nat × Char × Nat)
deriving DecidableEq, Repr

namespace Fragment

/-- Two new states with an edge for each of the symbols. -/
def symbols (next : Nat) (symbols : List Char) : Fragment where
  next := next + 2
  start := next
  accept := next + 1
  silent := []
  labelled := symbols.map fun c => (next, c, next + 1)

/-- Two new states with a silent edge. -/
def empty (next : Nat) : Fragment where
  next := next + 2
  start := next
  accept := next + 1
  silent := [(next, next + 1)]
  labelled := []

/-- One fragment after the other. -/
def seq (left right : Fragment) : Fragment where
  next := right.next
  start := left.start
  accept := right.accept
  silent := left.silent ++ right.silent ++ [(left.accept, right.start)]
  labelled := left.labelled ++ right.labelled

/-- A new start leads into both fragments, and both lead to a new exit. -/
def alt (left right : Fragment) : Fragment where
  next := right.next + 2
  start := right.next
  accept := right.next + 1
  silent := left.silent ++ right.silent ++
    [(right.next, left.start), (right.next, right.start),
      (left.accept, right.next + 1), (right.accept, right.next + 1)]
  labelled := left.labelled ++ right.labelled

/-- A new start leads into the fragment or past it, and its exit leads back or out. -/
def star (inner : Fragment) : Fragment where
  next := inner.next + 2
  start := inner.next
  accept := inner.next + 1
  silent := inner.silent ++
    [(inner.next, inner.start), (inner.next, inner.next + 1),
      (inner.accept, inner.start), (inner.accept, inner.next + 1)]
  labelled := inner.labelled

/-- The exit of the fragment leads back or to a new exit. -/
def plus (inner : Fragment) : Fragment where
  next := inner.next + 1
  start := inner.start
  accept := inner.next
  silent := inner.silent ++ [(inner.accept, inner.start), (inner.accept, inner.next)]
  labelled := inner.labelled

end Fragment

/-- The fragment of a pattern, with new states from `next` on. "At least once" uses the states of
its operand for the first word and for all others. -/
def Pattern.fragment (alphabet : Alphabet Char) : Pattern → (next : Nat) → Fragment
  | .char c, next => .symbols next (alphabet.symbols.filter fun s => s = c)
  | .any, next => .symbols next alphabet.symbols
  | .oneOf set, next => .symbols next (alphabet.symbols.filter set.contains)
  | .noneOf set, next => .symbols next (alphabet.symbols.filter fun s => !set.contains s)
  | .seq left right, next =>
    let left := left.fragment alphabet next
    left.seq (right.fragment alphabet left.next)
  | .alt left right, next =>
    let left := left.fragment alphabet next
    left.alt (right.fragment alphabet left.next)
  | .star inner, next => (inner.fragment alphabet next).star
  | .plus inner, next => (inner.fragment alphabet next).plus
  | .opt inner, next => (Fragment.empty next).alt (inner.fragment alphabet (next + 2))

/-- A fragment has new states, and its entry and exit are below the next number. So they are states
of the automaton that is made of it. -/
theorem Pattern.lt_next_fragment (alphabet : Alphabet Char) (pattern : Pattern) (next : Nat) :
    next < (pattern.fragment alphabet next).next ∧
      (pattern.fragment alphabet next).start < (pattern.fragment alphabet next).next ∧
      (pattern.fragment alphabet next).accept < (pattern.fragment alphabet next).next := by
  induction pattern generalizing next with
  | char | any | oneOf | noneOf => simp [fragment, Fragment.symbols]
  | seq left right ihl ihr =>
    have hl := ihl next
    have hr := ihr (left.fragment alphabet next).next
    simp only [fragment, Fragment.seq]
    omega
  | alt left right ihl ihr =>
    have hl := ihl next
    have hr := ihr (left.fragment alphabet next).next
    simp only [fragment, Fragment.alt]
    omega
  | star inner ih =>
    have hi := ih next
    simp only [fragment, Fragment.star]
    omega
  | plus inner ih =>
    have hi := ih next
    simp only [fragment, Fragment.plus]
    omega
  | opt inner ih =>
    -- the empty fragment comes before the operand, and takes two states.
    have hi := ih (next + 2)
    simp only [fragment, Fragment.alt]
    omega

/-! ## Whole automata -/

namespace Nfa

/-- The automaton of a fragment that has all states below `fragment.next`. Of the edges for one
symbol there is one matrix, whatever their order was. -/
@[reducible]
def ofFragment (alphabet : Alphabet Char) (fragment : Fragment)
    (start_lt : fragment.start < fragment.next) (accept_lt : fragment.accept < fragment.next) :
    Nfa where
  size := fragment.next
  start := ⟨fragment.start, start_lt⟩
  accept := ⟨fragment.accept, accept_lt⟩
  silent := Graph.relation fragment.next fragment.silent
  labelled := SymbolMap.ofKeys alphabet.symbols alphabet.nodup fun c =>
    Graph.relation fragment.next
      (fragment.labelled.filterMap fun (source, label, target) =>
        if label = c then some (source, target) else none)
  alphabet

def ofPattern (alphabet : Alphabet Char) (pattern : Pattern) : Nfa :=
  have h := pattern.lt_next_fragment alphabet 0
  ofFragment alphabet (pattern.fragment alphabet 0) h.2.1 h.2.2

end Nfa

end PathSum.Regex
