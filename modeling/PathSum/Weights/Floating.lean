import PathSum.Weights.Basic

/-!
# Floating-point weights

Lengths, scores and probabilities as floating-point numbers. Every operation is the one of the
number format, rounded once; nothing is reordered or fused.
-/

namespace PathSum

/-! ## Extremes

A value that is not a number loses against every other value. -/

def lesser (a b : Float) : Float :=
  if a.isNaN then b else if b.isNaN then a else if b < a then b else a

def greater (a b : Float) : Float :=
  if a.isNaN then b else if b.isNaN then a else if a < b then b else a

def infinity : Float := 1.0 / 0.0

/-! ## The weights -/

namespace Weights

/-- Lengths: the shortest path counts, and the steps of a path add up. Where there is no path the
length is infinite, and it stays so whatever is added. -/
def minPlus : Weights Float where
  zero := infinity
  one := 0.0
  add := lesser
  mul a b := if a == infinity || b == infinity then infinity else a + b
  same := (· == ·)

/-- Lengths of which the longest counts. Where there is no path the length is the least value, and
it stays so whatever is added. -/
def maxPlus : Weights Float where
  zero := -infinity
  one := 0.0
  add := greater
  mul a b := if a == -infinity || b == -infinity then -infinity else a + b
  same := (· == ·)

/-- Likelihoods of which the largest counts; the steps of a path multiply. -/
def maxTimes : Weights Float where
  zero := 0.0
  one := 1.0
  add := greater
  mul := (· * ·)
  same := (· == ·)

/-- Probabilities: alternatives add up, steps multiply. -/
def probability : Weights Float where
  zero := 0.0
  one := 1.0
  add := (· + ·)
  mul := (· * ·)
  same := (· == ·)

end Weights

namespace FieldWeights

/-- Real numbers, equal when they differ by no more than `tolerance`. -/
def real (tolerance : Float) : FieldWeights Float where
  zero := 0.0
  one := 1.0
  add := (· + ·)
  mul := (· * ·)
  same a b := a == b || (a - b).abs ≤ tolerance
  tolerance := some tolerance
  neg a := -a
  inv a := 1.0 / a

/-- The tolerance that is taken where none is asked for. -/
def defaultTolerance : Float := 1e-9

end FieldWeights

end PathSum
