import PathSum.Regex.Compiled
import PathSum.Regex.Walk

/-!
# Building task by task

The walk over a table of nodes with one builder, which numbers the states and records the edges
while the walk goes on. What the walk takes for granted is checked here wherever it is used, and has
a name where it does not hold: nodes that are in the table, a stack that is not empty, nodes of the
right kind, edges between states that exist.

Nothing here says that a check is passed; a pattern is compiled with all of them (`compileStages`).
-/

namespace PathSum.Regex

/-- Something that the walk takes for granted and that does not hold. A pattern never gives one of
these; they are here so that this can be said. -/
inductive BuildFault where
  /-- A node that is not in the table. -/
  | missingNode (id : Nat)
  /-- A fragment is needed, and the stack is empty. -/
  | emptyStack
  /-- A node with children where a node without children is built. -/
  | notLeaf (id : Nat)
  /-- A node without children whose children are to be combined. -/
  | notComposite (id : Nat)
  /-- Tasks are left when the walk should have come to its end. -/
  | tasksLeft
  /-- An edge between states that do not both exist. -/
  | edgeOutOfRange (source target : Nat)
  /-- The entry or the exit of the automaton is not one of its states. -/
  | endOutOfRange (state : Nat)
deriving DecidableEq, Repr

/-! ## The builder -/

/-- Where a part of an automaton is entered and left. -/
structure Ports where
  start : Nat
  accept : Nat
deriving DecidableEq, Repr

/-- The number of states so far, and the edges in the order in which they were recorded. -/
structure Builder where
  next : Nat
  silent : List (Nat × Nat)
  labelled : List (Nat × Char × Nat)
deriving DecidableEq, Repr

namespace Builder

def empty : Builder := ⟨0, [], []⟩

def newState (b : Builder) : Nat × Builder :=
  (b.next, { b with next := b.next + 1 })

/-- A new entry, then a new exit. -/
def newPorts (b : Builder) : Ports × Builder :=
  let (start, b) := b.newState
  let (accept, b) := b.newState
  (⟨start, accept⟩, b)

theorem newPorts_eq (b : Builder) :
    b.newPorts = (⟨b.next, b.next + 1⟩, { b with next := b.next + 2 }) := rfl

def addSilent (b : Builder) (source target : Nat) : Builder :=
  { b with silent := b.silent ++ [(source, target)] }

/-- An edge for each of the symbols. -/
def addLabelled (b : Builder) (source target : Nat) (symbols : List Char) : Builder :=
  { b with labelled := b.labelled ++ symbols.map fun c => (source, c, target) }

/-- The edges of a node without children. -/
def addLeaf (b : Builder) (alphabet : Alphabet Char) (id : Nat) (ports : Ports) :
    Node → Except BuildFault Builder
  | .empty => .ok (b.addSilent ports.start ports.accept)
  | .char c =>
    .ok (b.addLabelled ports.start ports.accept (alphabet.symbols.filter fun s => s = c))
  | .oneOf set =>
    .ok (b.addLabelled ports.start ports.accept (alphabet.symbols.filter set.contains))
  | .noneOf set =>
    .ok (b.addLabelled ports.start ports.accept (alphabet.symbols.filter fun s => !set.contains s))
  | .any => .ok (b.addLabelled ports.start ports.accept alphabet.symbols)
  | .seq _ _ | .alt _ _ | .star _ => .error (.notLeaf id)

end Builder

/-! ## The walk -/

/-- The walk between two tasks. On both stacks, what was put there last comes first. -/
structure Building where
  tasks : List Task
  ports : List Ports
  builder : Builder
deriving DecidableEq, Repr

namespace Building

/-- Before the node on top is entered. -/
def start (root : Nat) : Building :=
  ⟨[.enter root], [], .empty⟩

def popOne : List Ports → Except BuildFault (Ports × List Ports)
  | [] => .error .emptyStack
  | last :: rest => .ok (last, rest)

/-- The two fragments on top, the later one first. -/
def popPair (stack : List Ports) : Except BuildFault (Ports × Ports × List Ports) := do
  let (last, stack) ← popOne stack
  let (first, stack) ← popOne stack
  return (last, first, stack)

theorem popOne_cons (last : Ports) (rest : List Ports) :
    popOne (last :: rest) = .ok (last, rest) := rfl

theorem popPair_cons (last first : Ports) (rest : List Ports) :
    popPair (last :: first :: rest) = .ok (last, first, rest) := rfl

end Building

namespace NodeTable

def lookup (table : NodeTable) (id : Nat) : Except BuildFault Node :=
  match table.nodes[id]? with
  | some node => .ok node
  | none => .error (.missingNode id)

/-- Whether a node is "at least once", which its right child tells. -/
def checkPlus (table : NodeTable) (id : Nat) : Except BuildFault Bool := do
  match ← table.lookup id with
  | .seq left right => return (← table.lookup right) == .star left
  | _ => return false

/-- Builds a node without children, or puts the tasks for the children of a node before all other
tasks. -/
def enter (table : NodeTable) (alphabet : Alphabet Char) (id : Nat) (s : Building) :
    Except BuildFault Building := do
  match ← table.lookup id with
  | .seq left right | .alt left right =>
    if ← table.checkPlus id then
      return { s with tasks := .enter left :: .combine id :: s.tasks }
    else return { s with tasks := .enter left :: .enter right :: .combine id :: s.tasks }
  | .star inner => return { s with tasks := .enter inner :: .combine id :: s.tasks }
  | leaf =>
    let (ports, builder) := s.builder.newPorts
    let builder ← builder.addLeaf alphabet id ports leaf
    return { s with ports := ports :: s.ports, builder }

/-- Joins the fragments of the children of a node. -/
def combine (table : NodeTable) (id : Nat) (s : Building) : Except BuildFault Building := do
  match ← table.lookup id with
  | .seq _ _ =>
    if ← table.checkPlus id then
      let (inner, rest) ← Building.popOne s.ports
      let (accept, builder) := s.builder.newState
      let builder := (builder.addSilent inner.accept inner.start).addSilent inner.accept accept
      return { s with ports := ⟨inner.start, accept⟩ :: rest, builder }
    else
      let (right, left, rest) ← Building.popPair s.ports
      let builder := s.builder.addSilent left.accept right.start
      return { s with ports := ⟨left.start, right.accept⟩ :: rest, builder }
  | .alt _ _ =>
    let (right, left, rest) ← Building.popPair s.ports
    let (ports, builder) := s.builder.newPorts
    let builder := (builder.addSilent ports.start left.start).addSilent ports.start right.start
    let builder := (builder.addSilent left.accept ports.accept).addSilent right.accept ports.accept
    return { s with ports := ports :: rest, builder }
  | .star _ =>
    let (inner, rest) ← Building.popOne s.ports
    let (ports, builder) := s.builder.newPorts
    let builder := (builder.addSilent ports.start inner.start).addSilent ports.start ports.accept
    let builder := (builder.addSilent inner.accept inner.start).addSilent inner.accept ports.accept
    return { s with ports := ports :: rest, builder }
  | _ => throw (.notComposite id)

/-- Does the first task. Nothing changes when all tasks are done. -/
def step (table : NodeTable) (alphabet : Alphabet Char) (s : Building) :
    Except BuildFault Building :=
  match s.tasks with
  | [] => .ok s
  | .enter id :: tasks => table.enter alphabet id { s with tasks }
  | .combine id :: tasks => table.combine id { s with tasks }

/-- Does up to `count` tasks. -/
def steps (table : NodeTable) (alphabet : Alphabet Char) :
    (count : Nat) → Building → Except BuildFault Building
  | 0, s => .ok s
  | count + 1, s => table.step alphabet s >>= table.steps alphabet count

end NodeTable

/-! ## The matrices -/

/-- Marks an edge in the matrix, where it must have a place. -/
def markChecked {n : Nat} (A : Matrix Bool n n) (source target : Nat) :
    Except BuildFault (Matrix Bool n n) :=
  if h : source < n ∧ target < n then .ok (A.set ⟨source, h.1⟩ ⟨target, h.2⟩ true)
  else .error (.edgeOutOfRange source target)

/-- Marks an edge in the matrix of its symbol, if there is one. -/
def markLabelled {n : Nat} (map : SymbolMap Char (Matrix Bool n n)) (edge : Nat × Char × Nat) :
    Except BuildFault (SymbolMap Char (Matrix Bool n n)) :=
  match map.get? edge.2.1 with
  | none => .ok map
  | some A => (markChecked A edge.1 edge.2.2).map fun A => map.insert edge.2.1 A

def checkState (n state : Nat) : Except BuildFault (Fin n) :=
  if h : state < n then .ok ⟨state, h⟩ else .error (.endOutOfRange state)

/-- The automaton of all that was recorded, entered and left as a whole at the given ports. Every
edge is checked against the number of states. -/
def Builder.finish (b : Builder) (alphabet : Alphabet Char) (root : Ports) :
    Except BuildFault Nfa := do
  let size := b.next
  let silent ← b.silent.foldlM (fun A edge => markChecked A edge.1 edge.2)
    (.filled size size false)
  let labelled ← b.labelled.foldlM markLabelled
    (SymbolMap.ofKeys alphabet.symbols alphabet.nodup fun _ => .filled size size false)
  let start ← checkState size root.start
  let accept ← checkState size root.accept
  return { size, start, accept, silent, labelled, alphabet }

/-- The automaton of a table. Where no node but the operand of "at least once" is shared, there are
at most two tasks for each node. -/
def NodeTable.build (table : NodeTable) (alphabet : Alphabet Char) : Except BuildFault Nfa := do
  let s ← table.steps alphabet (2 * table.nodes.size) (.start table.root)
  match s.tasks with
  | [] =>
    let (root, _) ← Building.popOne s.ports
    s.builder.finish alphabet root
  | _ :: _ => throw .tasksLeft

/-! ## All stages -/

/-- Why no automaton is made of a text. -/
inductive CompileError where
  | parse (e : ParseError)
  | build (fault : BuildFault)
  | shape (e : ShapeError)
deriving DecidableEq, Repr

/-- Reads a pattern, builds the automaton of its table and removes the silent edges, with all checks
on the way. -/
def compileStages (limit : Nat) (alphabet : Alphabet Char) (pattern : String) :
    Except CompileError (WeightedAutomaton Char Bool) := do
  let p ← (Pattern.parse limit pattern).mapError .parse
  let nfa ← (p.nodeTable.build alphabet).mapError .build
  nfa.removeSilent.mapError .shape

end PathSum.Regex
