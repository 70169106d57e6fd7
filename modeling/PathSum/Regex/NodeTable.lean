import PathSum.Regex.Pattern

/-!
# Numbered nodes

The regular expression of a pattern as a table of nodes that name their children by number. The
operand of "at least once" is needed twice, and in the table its node is shared, so that the table
stays as small as the pattern.

Children are numbered before their parents, from left to right.
-/

namespace PathSum.Regex

/-- A node of a regular expression; children are given by their numbers. -/
inductive Node where
  | empty
  | char (c : Char)
  | oneOf (set : CharSet)
  | noneOf (set : CharSet)
  | any
  | seq (left right : Nat)
  | alt (left right : Nat)
  | star (inner : Nat)
deriving DecidableEq, Repr

/-- Nodes by number, and the number of the node on top. -/
structure NodeTable where
  nodes : Array Node
  root : Nat

namespace Pattern

def append (nodes : Array Node) (node : Node) : Array Node × Nat :=
  let id := nodes.size
  (nodes.push node, id)

/-- Appends the nodes of a pattern and gives the number of its topmost node. The operand of "at
least once" is appended once, and two nodes refer to it. -/
def number : Pattern → Array Node → Array Node × Nat
  | .char c, nodes => append nodes (.char c)
  | .any, nodes => append nodes .any
  | .oneOf set, nodes => append nodes (.oneOf set)
  | .noneOf set, nodes => append nodes (.noneOf set)
  | .seq left right, nodes =>
    let (nodes, l) := left.number nodes
    let (nodes, r) := right.number nodes
    append nodes (.seq l r)
  | .alt left right, nodes =>
    let (nodes, l) := left.number nodes
    let (nodes, r) := right.number nodes
    append nodes (.alt l r)
  | .star inner, nodes =>
    let (nodes, x) := inner.number nodes
    append nodes (.star x)
  | .plus inner, nodes =>
    let (nodes, x) := inner.number nodes
    let (nodes, again) := append nodes (.star x)
    append nodes (.seq x again)
  | .opt inner, nodes =>
    let (nodes, x) := inner.number nodes
    let (nodes, e) := append nodes .empty
    append nodes (.alt e x)

def nodeTable (pattern : Pattern) : NodeTable :=
  let (nodes, root) := pattern.number #[]
  { nodes, root }

end Pattern

/-! ## Unfolding -/

/-- The tree of a node, given the trees of the nodes before it. There is none if a child does not
come before. -/
def Node.tree? (trees : Array Tree) : Node → Option Tree
  | .empty => some .empty
  | .char c => some (.char c)
  | .oneOf set => some (.oneOf set)
  | .noneOf set => some (.noneOf set)
  | .any => some .any
  | .seq left right => do return .seq (← trees[left]?) (← trees[right]?)
  | .alt left right => do return .alt (← trees[left]?) (← trees[right]?)
  | .star inner => do return .star (← trees[inner]?)

namespace NodeTable

/-- The trees of all nodes, if each node comes after its children. -/
def trees? (table : NodeTable) : Option (Array Tree) :=
  table.nodes.foldlM (fun trees node => (node.tree? trees).map trees.push) #[]

def tree? (table : NodeTable) : Option Tree := do
  (← table.trees?)[table.root]?

/-- Whether a node is "at least once": its operand, followed by that same operand any number of
times. -/
def isPlus (table : NodeTable) (id : Nat) : Bool :=
  match table.nodes[id]? with
  | some (.seq left right) => table.nodes[right]? == some (.star left)
  | _ => false

end NodeTable

end PathSum.Regex
