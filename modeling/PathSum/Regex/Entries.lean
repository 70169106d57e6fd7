import PathSum.Regex.NodeTable

/-!
# What nodes are there for

Two ways to look at the table of a pattern. As a graph: which nodes refer to which, and how often.
And as a list of entries, each a node together with its number and with what it is there for, in the
order in which they are numbered. The entries tell the nodes of "at least once" from nodes that only
look like them.
-/

namespace PathSum.Regex

/-! ## Nodes that refer to nodes -/

/-- The numbers of the children, from left to right. -/
def Node.children : Node → List Nat
  | .empty | .char _ | .oneOf _ | .noneOf _ | .any => []
  | .seq left right | .alt left right => [left, right]
  | .star inner => [inner]

namespace NodeTable

/-- The one node has the other for a child. -/
def Refers (table : NodeTable) (parent child : Nat) : Prop :=
  ∃ node, table.nodes[parent]? = some node ∧ child ∈ node.children

/-- The nodes that refer to a node, in their order, each as often as it does. -/
def parents (table : NodeTable) (child : Nat) : List Nat :=
  table.nodes.toList.zipIdx.flatMap fun (node, parent) =>
    List.replicate (node.children.count child) parent

end NodeTable

/-! ## Entries -/

/-- What a node of the table of a pattern is there for. The node alone does not tell: a repetition
can also be written out. -/
inductive Source where
  /-- For an atom, or on top of an operator other than "at least once". -/
  | written
  /-- For the words after the first one of "at least once". -/
  | plusStar
  /-- On top of "at least once". -/
  | plusTop
  /-- For the other choice of "at most once". -/
  | optEmpty
deriving DecidableEq, Repr

/-- A node with its number and with what it is there for. -/
structure Entry where
  id : Nat
  node : Node
  source : Source
deriving DecidableEq, Repr

namespace Pattern

/-- How many nodes of a pattern come before the one on top. -/
def nodesBelow : Pattern → Nat
  | .char _ | .any | .oneOf _ | .noneOf _ => 0
  | .seq left right | .alt left right => left.nodesBelow + right.nodesBelow + 2
  | .star inner => inner.nodesBelow + 1
  | .plus inner | .opt inner => inner.nodesBelow + 2

/-- The entries of a pattern, with numbers from `next` on. The parts come first, from left to right,
and the node on top comes last. -/
def entries : Pattern → (next : Nat) → List Entry
  | .char c, next => [⟨next, .char c, .written⟩]
  | .any, next => [⟨next, .any, .written⟩]
  | .oneOf set, next => [⟨next, .oneOf set, .written⟩]
  | .noneOf set, next => [⟨next, .noneOf set, .written⟩]
  | .seq left right, next =>
    let l := next + left.nodesBelow
    let r := l + 1 + right.nodesBelow
    left.entries next ++ right.entries (l + 1) ++ [⟨r + 1, .seq l r, .written⟩]
  | .alt left right, next =>
    let l := next + left.nodesBelow
    let r := l + 1 + right.nodesBelow
    left.entries next ++ right.entries (l + 1) ++ [⟨r + 1, .alt l r, .written⟩]
  | .star inner, next =>
    let x := next + inner.nodesBelow
    inner.entries next ++ [⟨x + 1, .star x, .written⟩]
  | .plus inner, next =>
    let x := next + inner.nodesBelow
    inner.entries next ++ [⟨x + 1, .star x, .plusStar⟩, ⟨x + 2, .seq x (x + 1), .plusTop⟩]
  | .opt inner, next =>
    let x := next + inner.nodesBelow
    inner.entries next ++ [⟨x + 1, .empty, .optEmpty⟩, ⟨x + 2, .alt (x + 1) x, .written⟩]

/-- A node is what an "at least once" of the pattern repeats. -/
def Repeats (p : Pattern) (id : Nat) : Prop :=
  ∃ top star, ⟨top, .seq id star, .plusTop⟩ ∈ p.entries 0

/-- A node is on top of an "at least once" of the pattern. -/
def IsPlusTop (p : Pattern) (id : Nat) : Prop :=
  ∃ node, ⟨id, node, .plusTop⟩ ∈ p.entries 0

end Pattern

end PathSum.Regex
