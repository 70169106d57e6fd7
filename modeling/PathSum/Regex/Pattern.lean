import PathSum.Regex.CharSet

/-!
# Patterns

A pattern as it is written, with an operator for each way to repeat, and its meaning by trees of
fewer kinds: one or more is one and then any number, at most one is nothing or one.
-/

namespace PathSum.Regex

/-- A pattern as it is written, with its own form for each operator. Groups leave no trace but in
how the parts are nested. -/
inductive Pattern where
  | char (c : Char)
  /-- Any character of the alphabet. -/
  | any
  | oneOf (set : CharSet)
  /-- Any character of the alphabet outside a set. -/
  | noneOf (set : CharSet)
  | seq (left right : Pattern)
  | alt (left right : Pattern)
  | star (inner : Pattern)
  /-- At least once. -/
  | plus (inner : Pattern)
  /-- At most once. -/
  | opt (inner : Pattern)
deriving DecidableEq, Repr

/-- A regular expression. -/
inductive Tree where
  | empty
  | char (c : Char)
  | oneOf (set : CharSet)
  /-- Any character of the alphabet outside a set. -/
  | noneOf (set : CharSet)
  /-- Any character of the alphabet. -/
  | any
  | seq (left right : Tree)
  | alt (left right : Tree)
  | star (inner : Tree)
deriving DecidableEq, Repr

/-- The regular expression that a pattern stands for. "At least once" is a word of the operand and a
star of it, and "at most once" the choice between nothing and the operand. -/
def Pattern.tree : Pattern → Tree
  | .char c => .char c
  | .any => .any
  | .oneOf set => .oneOf set
  | .noneOf set => .noneOf set
  | .seq left right => .seq left.tree right.tree
  | .alt left right => .alt left.tree right.tree
  | .star inner => .star inner.tree
  | .plus inner =>
    let tree := inner.tree
    .seq tree (.star tree)
  | .opt inner => .alt .empty inner.tree

/-! ## Printed form -/

namespace Tree

/-- The items of a class; a range of one character is written as that character. -/
def classItems (set : CharSet) : List Char :=
  set.ranges.flatMap fun (first, last) => if first = last then [first] else [first, '-', last]

/-- The characters of the printed form, with all parentheses. -/
def chars : Tree → List Char
  | .empty => ['ε']
  | .char c => [c]
  | .oneOf set => '[' :: classItems set ++ [']']
  | .noneOf set => '[' :: '^' :: classItems set ++ [']']
  | .any => ['.']
  | .seq left right => '(' :: (left.chars ++ right.chars) ++ [')']
  | .alt left right => '(' :: (left.chars ++ '|' :: right.chars) ++ [')']
  | .star inner => '(' :: inner.chars ++ [')', '*']

/-- The printed form in front of other characters. -/
def charsBefore : Tree → List Char → List Char
  | .seq left right, rest => '(' :: left.charsBefore (right.charsBefore (')' :: rest))
  | .alt left right, rest => '(' :: left.charsBefore ('|' :: right.charsBefore (')' :: rest))
  | .star inner, rest => '(' :: inner.charsBefore (')' :: '*' :: rest)
  | tree, rest => tree.chars ++ rest

theorem charsBefore_eq (tree : Tree) (rest : List Char) :
    tree.charsBefore rest = tree.chars ++ rest := by
  induction tree generalizing rest with
  | seq left right ihl ihr => simp [charsBefore, chars, ihl, ihr]
  | alt left right ihl ihr => simp [charsBefore, chars, ihl, ihr]
  | star inner ih => simp [charsBefore, chars, ih]
  | _ => simp [charsBefore]

def text (tree : Tree) : String :=
  String.ofList (tree.charsBefore [])

theorem text_eq (tree : Tree) : tree.text = String.ofList tree.chars := by
  rw [text, charsBefore_eq, List.append_nil]

end Tree

end PathSum.Regex
