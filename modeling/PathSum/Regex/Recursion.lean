import PathSum.Regex.Walk

/-!
# Building by recursion

What the walk over a table of nodes stands for: the fragment of a node is put together from those of
its children, which come from the same rules. States are numbered in the order in which the
fragments are built, and there are no stacks and no tasks.
-/

namespace PathSum.Regex

/-- The symbols that a node reads, if it is there to read one. A class reads the symbols that one of
its ranges holds, a negated class the symbols that none of them holds. -/
def Node.reads? (alphabet : Alphabet Char) : Node → Option (List Char)
  | .char c => some (alphabet.symbols.filter fun s => s = c)
  | .oneOf set => some (alphabet.symbols.filter fun s => s ∈ set)
  | .noneOf set => some (alphabet.symbols.filter fun s => s ∉ set)
  | .any => some alphabet.symbols
  | .empty | .seq _ _ | .alt _ _ | .star _ => none

/-- The compiler finds the symbols of a class with the test that goes through the ranges. -/
theorem Node.reads?_oneOf (alphabet : Alphabet Char) (set : CharSet) :
    (Node.oneOf set).reads? alphabet = some (alphabet.symbols.filter set.contains) := by
  rw [reads?, set.contains_eq_decide]

theorem Node.reads?_noneOf (alphabet : Alphabet Char) (set : CharSet) :
    (Node.noneOf set).reads? alphabet =
      some (alphabet.symbols.filter fun s => !set.contains s) := by
  simp only [reads?, set.contains_eq_decide, decide_not]

/-- The fragment of a node, with new states from `next` on. A sequence whose right child is the star
of its left child builds that child once. -/
inductive NodeTable.Builds (table : NodeTable) (alphabet : Alphabet Char) :
    (id next : Nat) → Fragment → Prop where
  | empty {id next : Nat} :
      table.nodes[id]? = some .empty → Builds table alphabet id next (.empty next)
  | symbols {id next : Nat} {node : Node} {chars : List Char} :
      table.nodes[id]? = some node → node.reads? alphabet = some chars →
        Builds table alphabet id next (.symbols next chars)
  | seq {id next l r : Nat} {left right : Fragment} :
      table.nodes[id]? = some (.seq l r) → table.nodes[r]? ≠ some (.star l) →
        Builds table alphabet l next left → Builds table alphabet r left.next right →
          Builds table alphabet id next (left.seq right)
  | alt {id next l r : Nat} {left right : Fragment} :
      table.nodes[id]? = some (.alt l r) →
        Builds table alphabet l next left → Builds table alphabet r left.next right →
          Builds table alphabet id next (left.alt right)
  | star {id next x : Nat} {inner : Fragment} :
      table.nodes[id]? = some (.star x) →
        Builds table alphabet x next inner → Builds table alphabet id next inner.star
  | plus {id next x again : Nat} {inner : Fragment} :
      table.nodes[id]? = some (.seq x again) → table.nodes[again]? = some (.star x) →
        Builds table alphabet x next inner → Builds table alphabet id next inner.plus

end PathSum.Regex
