import PathSum.Json.Value

/-!
# Reading JSON text

A reader takes a value from the front of a text and leaves the rest. The nesting of arrays and
objects is bounded only by the length of the text.
-/

namespace PathSum.Json

/-- Spaces, tabs and line ends may stand between the parts of a value. -/
def isSpace (c : Char) : Bool :=
  c == ' ' || c == '\t' || c == '\n' || c == '\r'

/-- The text after its leading spaces. -/
def skipSpace (text : List Char) : List Char :=
  text.dropWhile isSpace

/-! ## Numbers -/

/-- The leading digits of a text, and the rest. -/
def takeDigits (text : List Char) : List Nat × List Char :=
  ((text.takeWhile Char.isDigit).map fun c => c.toNat - '0'.toNat, text.dropWhile Char.isDigit)

/-- At least one digit. -/
def digits? (text : List Char) : Option (List Nat × List Char) :=
  match takeDigits text with
  | ([], _) => none
  | (digits, rest) => some (digits, rest)

def ofDigits (digits : List Nat) : Nat :=
  digits.foldl (fun n digit => n * 10 + digit) 0

/-- The digits before the point: no zero may come before others. -/
def whole? (text : List Char) : Option (Nat × List Char) := do
  let (digits, rest) ← digits? text
  match digits with
  | 0 :: _ :: _ => none
  | _ => some (ofDigits digits, rest)

/-- The digits after a point, if there is a point. -/
def fraction? (text : List Char) : Option (Option (List Nat) × List Char) :=
  match text with
  | '.' :: rest => (digits? rest).map fun (digits, rest) => (some digits, rest)
  | rest => some (none, rest)

/-- The digits of an exponent with its sign. -/
def exponentDigits? (text : List Char) : Option (Option Int × List Char) :=
  match text with
  | '-' :: rest => (digits? rest).map fun (digits, rest) => (some (-(ofDigits digits : Int)), rest)
  | '+' :: rest | rest =>
    (digits? rest).map fun (digits, rest) => (some (ofDigits digits : Int), rest)

/-- The power of ten, if there is one. -/
def exponent? (text : List Char) : Option (Option Int × List Char) :=
  match text with
  | 'e' :: rest | 'E' :: rest => exponentDigits? rest
  | rest => some (none, rest)

/-- A number without its sign. -/
def unsigned? (negative : Bool) (text : List Char) : Option (Numeral × List Char) := do
  let (whole, rest) ← whole? text
  let (fraction, rest) ← fraction? rest
  let (exponent, rest) ← exponent? rest
  return ({ negative, whole, fraction, exponent }, rest)

def numeral? (text : List Char) : Option (Numeral × List Char) :=
  match text with
  | '-' :: rest => unsigned? true rest
  | rest => unsigned? false rest

/-! ## Strings -/

/-- A part of a string: a character, or a unit of 16 bits that is given by its digits. -/
inductive Piece where
  | char (c : Char)
  | unit (n : Nat)

def hexDigit? (c : Char) : Option Nat :=
  if c.isDigit then some (c.toNat - '0'.toNat)
  else if 'a' ≤ c && c ≤ 'f' then some (c.toNat - 'a'.toNat + 10)
  else if 'A' ≤ c && c ≤ 'F' then some (c.toNat - 'A'.toNat + 10)
  else none

/-- A unit given by four digits. -/
def unit? (a b c d : Char) : Option Nat := do
  return (((← hexDigit? a) * 16 + (← hexDigit? b)) * 16 + (← hexDigit? c)) * 16 + (← hexDigit? d)

/-- The character that a backslash and a letter stand for. -/
def escaped? : Char → Option Char
  | '"' => some '"'
  | '\\' => some '\\'
  | '/' => some '/'
  | 'b' => some '\x08'
  | 'f' => some '\x0c'
  | 'n' => some '\n'
  | 'r' => some '\r'
  | 't' => some '\t'
  | _ => none

/-- The parts of a string up to the closing quote. Control characters must be escaped. -/
def pieces? : List Char → Option (List Piece × List Char)
  | [] => none
  | '"' :: rest => some ([], rest)
  | '\\' :: 'u' :: a :: b :: c :: d :: rest => do
    let n ← unit? a b c d
    let (pieces, rest) ← pieces? rest
    return (.unit n :: pieces, rest)
  | '\\' :: letter :: rest => do
    let c ← escaped? letter
    let (pieces, rest) ← pieces? rest
    return (.char c :: pieces, rest)
  | c :: rest =>
    if c.toNat < 0x20 then none
    else do
      let (pieces, rest) ← pieces? rest
      return (.char c :: pieces, rest)

/-- The characters of a string, unless it holds half of a surrogate pair. -/
def chars? : List Piece → Option (List Char)
  | [] => some []
  | .char c :: rest => (chars? rest).map (c :: ·)
  | .unit high :: .unit low :: rest =>
    if 0xd800 ≤ high && high < 0xdc00 then
      if 0xdc00 ≤ low && low < 0xe000 then
        let code := 0x10000 + (high - 0xd800) * 0x400 + (low - 0xdc00)
        (chars? rest).map (Char.ofNat code :: ·)
      else none
    else if 0xdc00 ≤ high && high < 0xe000 then none
    else (chars? (.unit low :: rest)).map (Char.ofNat high :: ·)
  | .unit n :: rest =>
    if 0xd800 ≤ n && n < 0xe000 then none
    else (chars? rest).map (Char.ofNat n :: ·)

def string? (text : List Char) : Option (Text × List Char) := do
  let (pieces, rest) ← pieces? text
  return ((chars? pieces).map String.ofList, rest)

/-! ## Values -/

mutual

/-- A value, with nesting of at most `fuel`. -/
def value? : (fuel : Nat) → List Char → Option (Value × List Char)
  | 0, _ => none
  | fuel + 1, text =>
    match skipSpace text with
    | 'n' :: 'u' :: 'l' :: 'l' :: rest => some (.null, rest)
    | 't' :: 'r' :: 'u' :: 'e' :: rest => some (.bool true, rest)
    | 'f' :: 'a' :: 'l' :: 's' :: 'e' :: rest => some (.bool false, rest)
    | '"' :: rest => (string? rest).map fun (s, rest) => (.string s, rest)
    | '[' :: rest =>
      match skipSpace rest with
      | ']' :: rest => some (.array [], rest)
      | rest => (items? fuel rest).map fun (items, rest) => (.array items, rest)
    | '{' :: rest =>
      match skipSpace rest with
      | '}' :: rest => some (.object [], rest)
      | rest => (members? fuel rest).map fun (members, rest) => (.object members, rest)
    | rest => (numeral? rest).map fun (n, rest) => (.number n, rest)

def items? : (fuel : Nat) → List Char → Option (List Value × List Char)
  | 0, _ => none
  | fuel + 1, text => do
    let (item, rest) ← value? fuel text
    match skipSpace rest with
    | ',' :: rest => (items? fuel rest).map fun (items, rest) => (item :: items, rest)
    | ']' :: rest => some ([item], rest)
    | _ => none

def members? : (fuel : Nat) → List Char → Option (List (Text × Value) × List Char)
  | 0, _ => none
  | fuel + 1, text => do
    let '"' :: rest := skipSpace text | none
    let (name, rest) ← string? rest
    let ':' :: rest := skipSpace rest | none
    let (value, rest) ← value? fuel rest
    match skipSpace rest with
    | ',' :: rest =>
      (members? fuel rest).map fun (members, rest) => ((name, value) :: members, rest)
    | '}' :: rest => some ([(name, value)], rest)
    | _ => none

end

/-- The value at the front of a text, and the text after it. Every part of a value takes up room in
the text, so its length bounds the nesting and the number of items. -/
def read? (text : List Char) : Option (Value × List Char) :=
  value? (2 * text.length + 2) text

end PathSum.Json
