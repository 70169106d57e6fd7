import PathSum.Text.Quoted

/-!
# JSON values

Values as they are written in JSON text. Numbers keep their digits, since only the reader of a
number knows which of them it can use; strings and names keep their characters, or only that they
denote no text.
-/

namespace PathSum.Json

/-- A number as it is written. -/
structure Numeral where
  negative : Bool
  /-- The digits before the point, as a number. -/
  whole : Nat
  /-- The digits after the point. -/
  fraction : Option (List Nat)
  exponent : Option Int
deriving DecidableEq, Repr

/-- A string, or `none` for one that holds half of a surrogate pair and therefore is no text. -/
abbrev Text := Option String

/-- A value. The members of an object stand in the order in which they are written. -/
inductive Value where
  | null
  | bool (b : Bool)
  | number (n : Numeral)
  | string (s : Text)
  | array (items : List Value)
  | object (members : List (Text × Value))

/-! ## Numbers -/

namespace Numeral

/-- An integer without point and exponent. -/
def ofInt (n : Int) : Numeral where
  negative := n < 0
  whole := n.natAbs
  fraction := none
  exponent := none

/-- The integer that is written without point and exponent. Negative zero is none. -/
def toInt? (n : Numeral) : Option Int :=
  if n.fraction.isSome || n.exponent.isSome || (n.negative && n.whole == 0) then none
  else some (if n.negative then -n.whole else n.whole)

theorem toInt?_ofInt (n : Int) : (ofInt n).toInt? = some n := by
  have habs : (-1 < n ∨ n < 0) := by omega
  simp only [toInt?, ofInt, Option.isSome_none, Bool.false_or, Bool.and_eq_true,
    decide_eq_true_eq, beq_iff_eq]
  rw [if_neg (by omega)]
  split <;> congr 1 <;> omega

def text (n : Numeral) : String :=
  let sign := if n.negative then "-" else ""
  let fraction := match n.fraction with
    | none => ""
    | some digits => "." ++ String.join (digits.map toString)
  let exponent := match n.exponent with
    | none => ""
    | some e => "e" ++ toString e
  sign ++ toString n.whole ++ fraction ++ exponent

end Numeral

/-! ## Written form -/

/-- A character of a string: quotes, backslashes and control characters are escaped. -/
def escape (c : Char) : String :=
  match c with
  | '"' => "\\\""
  | '\\' => "\\\\"
  | '\x08' => "\\b"
  | '\x0c' => "\\f"
  | '\n' => "\\n"
  | '\r' => "\\r"
  | '\t' => "\\t"
  | c =>
    if c.toNat < 0x10 then "\\u000" ++ Text.hex c.toNat
    else if c.toNat < 0x20 then "\\u00" ++ Text.hex c.toNat
    else c.toString

/-- A string between quotes. -/
def textOf : Text → String
  | none => "\"\\ud800\""
  | some s => "\"" ++ String.join (s.toList.map escape) ++ "\""

mutual

def Value.text : Value → String
  | .null => "null"
  | .bool b => toString b
  | .number n => n.text
  | .string s => textOf s
  | .array items => "[" ++ ",".intercalate (itemTexts items) ++ "]"
  | .object members => "\x7b" ++ ",".intercalate (memberTexts members) ++ "\x7d"

def itemTexts : List Value → List String
  | [] => []
  | item :: items => item.text :: itemTexts items

def memberTexts : List (Text × Value) → List String
  | [] => []
  | (name, value) :: members => (textOf name ++ ":" ++ value.text) :: memberTexts members

end

end PathSum.Json
