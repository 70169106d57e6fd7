import PathSum.Regex.Grammar
import PathSum.Regex.Marks
import PathSum.Regex.Reader

/-!
# Causes of errors

What stands in a text where an error points. Groups, classes and escapes are told apart by the marks
of the text, and the items of a class by its characters, so nothing here says how a text is read.

Main definition: `ParseError.HasCause`, the text that an error of each kind may point at.
-/

namespace PathSum.Regex

/-- Whole items of a class, and the character that comes behind them. A character is an item by
itself if no dash comes behind it. -/
inductive WholeItems : List Char → (next : Option Char) → Prop where
  | nil {next : Option Char} : WholeItems [] next
  | single {items text : List Char} {c : Char} {next : Option Char} :
      WholeItems items text.head? → DerivesClassChar text c → next ≠ some '-' →
        WholeItems (items ++ text) next
  | range {items first last : List Char} {lo hi : Char} {next : Option Char} :
      WholeItems items first.head? → DerivesClassChar first lo → DerivesClassChar last hi →
        lo ≤ hi → WholeItems (items ++ (first ++ '-' :: last)) next

/-- An item of a class begins behind a text: the class is opened outside of any other, and only
whole items come in between. A caret that comes first is no item. -/
def BeginsItem (before item : List Char) : Prop :=
  ∃ outer caret items, before = outer ++ '[' :: (caret ++ items) ∧ placeAfter outer = .outside ∧
    (caret = ['^'] ∨ caret = [] ∧ (items ++ item).head? ≠ some '^') ∧ WholeItems items item.head?

/-- So many groups are open behind a text. -/
def OpensGroups (before : List Char) (count : Nat) : Prop :=
  placeAfter before = .outside ∧ (marks before).count .opened = (marks before).count .closed + count

/-- What stands before and behind the place that an error points at. Errors at the end have nothing
behind it; an error about a class or a range points at where that begins. -/
def ParseError.Kind.Cause (limit : Nat) (before after : List Char) : ParseError.Kind → Prop
  | .unexpectedEnd => after = [] ∧ placeAfter before = .outside
  | .unclosedGroup => after = [] ∧ ∃ count, 0 < count ∧ OpensGroups before count
  | .danglingEscape =>
    after = ['\\'] ∧ (placeAfter before = .outside ∨ placeAfter before = .inClass)
  | .unterminatedClass =>
    ∃ rest, after = '[' :: rest ∧ placeAfter before = .outside ∧ marksFrom .inClass rest = []
  | .emptyClass =>
    placeAfter before = .outside ∧
      ∃ rest, after = '[' :: ']' :: rest ∨ after = '[' :: '^' :: ']' :: rest
  | .unexpectedChar c =>
    c ∈ [')', '|', '*', '+', '?'] ∧ placeAfter before = .outside ∧ ∃ rest, after = c :: rest
  | .invalidRange lo hi =>
    hi < lo ∧ ∃ first last rest, after = first ++ '-' :: (last ++ rest) ∧
      DerivesClassChar first lo ∧ DerivesClassChar last hi ∧ BeginsItem before first
  | .nestingTooDeep count =>
    count = limit ∧ OpensGroups before limit ∧ ∃ rest, after = '(' :: rest
  | .trailingInput c =>
    c = ')' ∧ (∃ rest, after = c :: rest) ∧ ∃ p, Pattern.parseChars limit before = .ok p

/-- An error points at what causes it. -/
def ParseError.HasCause (e : ParseError) (limit : Nat) (text : List Char) : Prop :=
  ∃ before after, text = before ++ after ∧ e.position = before.length ∧
    e.kind.Cause limit before after

end PathSum.Regex
