import PathSum.Regex.Nfa
import PathSum.Regex.NodeTable

/-!
# Automata of numbered nodes

The automaton of a table of nodes, built by a walk that visits shared nodes once and keeps its own
stacks: the tasks that are still to be done, and the fragments that are still to be joined.
-/

namespace PathSum.Regex

/-- What the walk still has to do. -/
inductive Task where
  /-- Build the fragment of a node. -/
  | enter (id : Nat)
  /-- Join the fragments of the children of a node, which are on the stack. -/
  | combine (id : Nat)
deriving DecidableEq, Repr

namespace NodeTable

/-- The tasks for building the fragment of a node, or its fragment if it has no children. The
operand of "at least once" is built once. -/
def expand (table : NodeTable) (alphabet : Alphabet Char) (id next : Nat) :
    Node → List Task ⊕ Fragment
  | .empty => .inr (.empty next)
  | .char c => .inr (.symbols next (alphabet.symbols.filter fun s => s = c))
  | .oneOf set => .inr (.symbols next (alphabet.symbols.filter set.contains))
  | .noneOf set => .inr (.symbols next (alphabet.symbols.filter fun s => !set.contains s))
  | .any => .inr (.symbols next alphabet.symbols)
  | .seq left right =>
    if table.isPlus id then .inl [.enter left, .combine id]
    else .inl [.enter left, .enter right, .combine id]
  | .alt left right => .inl [.enter left, .enter right, .combine id]
  | .star inner => .inl [.enter inner, .combine id]

/-- Joins the fragments on top of the stack as a node requires. The right part of a sequence or a
choice lies above the left one. -/
def join (table : NodeTable) (id : Nat) : Node → List Fragment → Option (Fragment × List Fragment)
  | .seq _ _, stack =>
    match table.isPlus id, stack with
    | true, inner :: stack => some (inner.plus, stack)
    | false, right :: left :: stack => some (left.seq right, stack)
    | _, _ => none
  | .alt _ _, right :: left :: stack => some (left.alt right, stack)
  | .star _, inner :: stack => some (inner.star, stack)
  | _, _ => none

/-- Does at most `fuel` tasks and gives the fragments that remain. New states are numbered from
`next` on. -/
def walk (table : NodeTable) (alphabet : Alphabet Char) :
    (fuel : Nat) → List Task → List Fragment → (next : Nat) → Option (List Fragment)
  | _, [], stack, _ => some stack
  | 0, _ :: _, _, _ => none
  | fuel + 1, .enter id :: tasks, stack, next => do
    match table.expand alphabet id next (← table.nodes[id]?) with
    | .inl first => table.walk alphabet fuel (first ++ tasks) stack next
    | .inr fragment => table.walk alphabet fuel tasks (fragment :: stack) fragment.next
  | fuel + 1, .combine id :: tasks, stack, _ => do
    let (fragment, stack) ← table.join id (← table.nodes[id]?) stack
    table.walk alphabet fuel tasks (fragment :: stack) fragment.next

/-- The fragment of the node on top. Every node is entered once and combined at most once. -/
def fragment? (table : NodeTable) (alphabet : Alphabet Char) : Option Fragment :=
  match table.walk alphabet (2 * table.nodes.size) [.enter table.root] [] 0 with
  | some [fragment] => some fragment
  | _ => none

/-- The automaton of the node on top, if the table is the table of a tree. -/
def nfa? (table : NodeTable) (alphabet : Alphabet Char) : Option Nfa := do
  let fragment ← table.fragment? alphabet
  if h : fragment.start < fragment.next ∧ fragment.accept < fragment.next then
    some (.ofFragment alphabet fragment h.1 h.2)
  else none

end NodeTable

end PathSum.Regex
