import PathSum.Text.Unprintable

/-!
# Values as text

How messages show characters and strings: between quotes, with a backslash before what could be
misread, and with the code point of every character that has no printed form. Symbols of automata
are shown this way in messages, and as they are where they are keys. Numbers with a floating point
are written as their bits.
-/

namespace PathSum.Text

/-- The digits of a number to the base sixteen, in lower case and without leading zeros. -/
def hex (n : Nat) : String :=
  String.ofList (Nat.toDigits 16 n)

/-- A character inside quotes of the kind `quote`. -/
def escape (quote c : Char) : String :=
  match c with
  | '\x00' => "\\0"
  | '\t' => "\\t"
  | '\r' => "\\r"
  | '\n' => "\\n"
  | '\\' => "\\\\"
  | c =>
    if c = quote then "\\" ++ c.toString
    else if isPrintable c then c.toString
    else "\\u\x7b" ++ hex c.toNat ++ "\x7d"

/-- A character between single quotes. -/
def quoteChar (c : Char) : String :=
  "'" ++ escape '\'' c ++ "'"

/-- A string between double quotes. -/
def quoteString (s : String) : String :=
  "\"" ++ String.join (s.toList.map (escape '"')) ++ "\""

/-! ## Bits -/

/-- A number to the base sixteen with at least the given number of digits. -/
def paddedHex (width n : Nat) : String :=
  let digits := Nat.toDigits 16 n
  String.ofList (List.replicate (width - digits.length) '0' ++ digits)

/-- The 64 bits of a floating-point number. -/
def bits (x : Float) : String :=
  "0x" ++ paddedHex 16 x.toBits.toNat

end PathSum.Text

/-! ## Symbols -/

namespace PathSum

/-- Symbols that can be shown. -/
class Symbol (σ : Type) where
  /-- How messages show the symbol. -/
  quoted : σ → String
  /-- The symbol as the key of a written map. -/
  key : σ → String

instance : Symbol Char where
  quoted := Text.quoteChar
  key := Char.toString

instance : Symbol String where
  quoted := Text.quoteString
  key s := s

instance : Symbol Int where
  quoted := toString
  key := toString

end PathSum
