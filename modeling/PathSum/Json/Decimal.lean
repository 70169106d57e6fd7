import PathSum.Json.Value

/-!
# Decimals as floating-point numbers

A number in JSON text is a whole number of digits, scaled by a power of ten. It is read as the
floating-point number that is nearest to this value, with an even significand if two are equally
near. All its digits count, however many there are. Only a value that would be rounded to infinity
is refused; one too small for any other number is zero, with its sign.
-/

namespace PathSum.Json

/-- All digits of a numeral as one number, without the point. -/
def Numeral.digits (n : Numeral) : Nat :=
  (n.fraction.getD []).foldl (fun digits digit => digits * 10 + digit) n.whole

/-- The power of ten by which the digits are scaled: every digit after the point lowers it. -/
def Numeral.scale (n : Numeral) : Int :=
  n.exponent.getD 0 - (n.fraction.getD []).length

/-- A positive whole number that is scaled by a larger power of ten is too large. -/
def maxScale : Int := 308

/-- Every number below one half to this power is rounded to zero. -/
def vanishingBits : Nat := 1075

/-- Whether a number divided by `10 ^ places` is sure to be rounded to zero: it is below
`2 ^ (digits.log2 + 1)`, and each division by ten is one by more than `2 ^ 3`. -/
def vanishes (digits places : Nat) : Bool :=
  digits.log2 + 1 + vanishingBits < 3 * places

/-- The floating-point number nearest to `digits * 10 ^ scale`, if it is finite. Very large and very
small scales are decided first, so that the power of ten is never longer than the digits need. -/
def nearest? (digits : Nat) (scale : Int) : Option Float :=
  if digits = 0 ∨ (scale < 0 ∧ vanishes digits scale.natAbs) then some 0.0
  else if maxScale < scale then none
  else
    let x := Float.ofScientific digits (decide (scale < 0)) scale.natAbs
    if x.isFinite then some x else none

/-- The floating-point number that is written, unless it is too large. -/
def Numeral.toFloat? (n : Numeral) : Option Float := do
  let x ← nearest? n.digits n.scale
  return if n.negative then -x else x

end PathSum.Json
