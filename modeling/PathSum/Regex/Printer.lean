import PathSum.Regex.Grammar
import PathSum.Regex.NodeTable

/-!
# Printing numbered nodes

The printed form of a table of nodes, by a loop that keeps what is still to be printed on a stack.
Nothing is marked as printed, so a node is printed as often as it is named, and the printed form may
be far longer than the table.

Printing puts a group around each operator and never writes a backslash, so a text that was printed
can be read back only if no character would need one. `Tree.Readable` says which trees these are,
and `Tree.height` how many groups are then open at a time.

Main statements: one round of the loop for each kind of piece (`printSteps_text`,
`printSteps_node`), and that the loop stays where it ends (`printSteps_of_done`).
-/

namespace PathSum.Regex

/-- Something that is still to be printed. -/
inductive Piece where
  /-- A node with all below it. -/
  | node (id : Nat)
  | text (text : String)
deriving DecidableEq, Repr

namespace Node

/-- What is written as soon as a node is met. -/
def opening : Node → String
  | .empty => "ε"
  | .char c => c.toString
  | .oneOf set => "[" ++ String.ofList (Tree.classItems set) ++ "]"
  | .noneOf set => "[^" ++ String.ofList (Tree.classItems set) ++ "]"
  | .any => "."
  | .seq _ _ | .alt _ _ | .star _ => "("

/-- What is left of a node when its opening is written. -/
def pieces : Node → List Piece
  | .empty | .char _ | .oneOf _ | .noneOf _ | .any => []
  | .seq left right => [.node left, .node right, .text ")"]
  | .alt left right => [.node left, .text "|", .node right, .text ")"]
  | .star inner => [.node inner, .text ")*"]

end Node

/-- The loop between two rounds. What was put on the stack last comes first. -/
structure Printing where
  written : String
  pieces : List Piece
deriving DecidableEq, Repr

/-- Before the node on top is printed. -/
def Printing.start (root : Nat) : Printing :=
  ⟨"", [.node root]⟩

namespace NodeTable

/-- Prints the first piece, if it is not a node that is missing in the table. Nothing changes when
all pieces are printed. -/
def printStep (table : NodeTable) (s : Printing) : Option Printing :=
  match s.pieces with
  | [] => some s
  | .text text :: pieces => some ⟨s.written ++ text, pieces⟩
  | .node id :: pieces => do
    let node ← table.nodes[id]?
    return ⟨s.written ++ node.opening, node.pieces ++ pieces⟩

/-- Does up to `count` rounds. -/
def printSteps (table : NodeTable) : (count : Nat) → Printing → Option Printing
  | 0, s => some s
  | count + 1, s => table.printStep s >>= table.printSteps count

variable {table : NodeTable} {id count : Nat} {node : Node} {written : String}
  {pieces : List Piece}

theorem printSteps_text (text : String) :
    table.printSteps (count + 1) ⟨written, .text text :: pieces⟩ =
      table.printSteps count ⟨written ++ text, pieces⟩ := rfl

theorem printSteps_node (hid : table.nodes[id]? = some node) :
    table.printSteps (count + 1) ⟨written, .node id :: pieces⟩ =
      table.printSteps count ⟨written ++ node.opening, node.pieces ++ pieces⟩ := by
  simp [printSteps, printStep, hid]

theorem printSteps_of_done (count : Nat) (written : String) :
    table.printSteps count ⟨written, []⟩ = some ⟨written, []⟩ := by
  induction count with
  | zero => rfl
  | succ count ih => exact ih

end NodeTable

/-! ## What can be read back -/

/-- The characters that mean something else in a class than themselves. -/
def classSigns : List Char :=
  [']', '\\', '-', '^']

/-- The bounds of the ranges stand for themselves. -/
def CharSet.Readable (set : CharSet) : Prop :=
  ∀ range ∈ set.ranges, range.1 ∉ classSigns ∧ range.2 ∉ classSigns

instance : DecidablePred CharSet.Readable :=
  fun set => inferInstanceAs (Decidable (∀ range ∈ set.ranges, _))

namespace Tree

/-- Nothing in the printed form stands for anything else. -/
def Readable : Tree → Prop
  | .empty => False
  | .char c => c ∉ signs
  | .oneOf set | .noneOf set => set.Readable
  | .any => True
  | .seq left right | .alt left right => left.Readable ∧ right.Readable
  | .star inner => inner.Readable

def decidableReadable : (tree : Tree) → Decidable tree.Readable
  | .empty => inferInstanceAs (Decidable False)
  | .char c => inferInstanceAs (Decidable (c ∉ signs))
  | .oneOf set | .noneOf set => inferInstanceAs (Decidable set.Readable)
  | .any => inferInstanceAs (Decidable True)
  | .seq left right | .alt left right =>
    @instDecidableAnd _ _ left.decidableReadable right.decidableReadable
  | .star inner => inner.decidableReadable

instance : DecidablePred Readable :=
  decidableReadable

/-- How many pieces the printed form is made of: a node is one, and so is each text that comes
behind a child. -/
def pieceCount : Tree → Nat
  | .empty | .char _ | .oneOf _ | .noneOf _ | .any => 1
  | .seq left right => left.pieceCount + right.pieceCount + 2
  | .alt left right => left.pieceCount + right.pieceCount + 3
  | .star inner => inner.pieceCount + 2

/-- How many operators are around the innermost leaf. -/
def height : Tree → Nat
  | .empty | .char _ | .oneOf _ | .noneOf _ | .any => 0
  | .seq left right | .alt left right => max left.height right.height + 1
  | .star inner => inner.height + 1

end Tree

end PathSum.Regex
