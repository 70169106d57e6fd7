import PathSum.Text.Quoted

/-!
# Errors in patterns

Why a pattern is refused, and where. Positions count characters from zero.
-/

namespace PathSum.Regex

/-- What is wrong with a pattern. Where it is wrong is said apart, by a position. -/
inductive ParseError.Kind where
  | danglingEscape
  | unterminatedClass
  | emptyClass
  | invalidRange (first last : Char)
  /-- An operator or a closing parenthesis where an atom has to come. -/
  | unexpectedChar (c : Char)
  /-- The end of the pattern where an atom has to come. -/
  | unexpectedEnd
  | unclosedGroup
  /-- A closing parenthesis without a group. -/
  | trailingInput (c : Char)
  /-- More open groups than allowed. -/
  | nestingTooDeep (limit : Nat)
deriving DecidableEq, Repr

/-- A refused pattern. -/
structure ParseError where
  position : Nat
  kind : ParseError.Kind
deriving DecidableEq, Repr

namespace ParseError

def Kind.message : Kind → String
  | .danglingEscape => "dangling escape at end of pattern"
  | .unterminatedClass => "unterminated character class"
  | .emptyClass => "empty character class"
  | .invalidRange first last =>
    "invalid range " ++ Text.quoteChar first ++ "-" ++ Text.quoteChar last
  | .unexpectedChar c => "unexpected " ++ Text.quoteChar c ++ ", expected an atom"
  | .unexpectedEnd => "unexpected end of pattern, expected an atom"
  | .unclosedGroup => "missing closing parenthesis"
  | .trailingInput c => "trailing input starting with " ++ Text.quoteChar c
  | .nestingTooDeep limit => s!"groups nested deeper than {limit}"

def message (e : ParseError) : String :=
  s!"{e.kind.message} at position {e.position}"

end ParseError

end PathSum.Regex
