/-!
# Errors of shape

What is wrong with the sizes of matrices and vectors that do not go together.
-/

namespace PathSum

/-- The vector or matrix whose size is off. -/
inductive Operand where
  | matrixData
  | rowVector
  | columnVector
  | dotOperand
  | finalWeights
  | transitionMatrix
  | emissionMatrix
deriving DecidableEq, Repr

def Operand.name : Operand → String
  | .matrixData => "matrix data"
  | .rowVector => "row vector"
  | .columnVector => "column vector"
  | .dotOperand => "dot operand"
  | .finalWeights => "final weights"
  | .transitionMatrix => "transition matrix"
  | .emissionMatrix => "emission matrix"

structure Shape where
  rows : Nat
  cols : Nat
deriving DecidableEq, Repr

def Shape.text (shape : Shape) : String :=
  s!"{shape.rows}x{shape.cols}"

/-- Why operands do not go together. -/
inductive ShapeError where
  /-- A product where the left columns are not as many as the right rows. -/
  | mulMismatch (left right : Shape)
  /-- A sum of different shapes. -/
  | addMismatch (left right : Shape)
  | notSquare (shape : Shape)
  /-- The first row that is not as long as the first. -/
  | ragged (row expected found : Nat)
  /-- A size other than the expected one. -/
  | lengthMismatch (what : Operand) (expected found : Nat)
  /-- The first entry beside the diagonal that is not zero. -/
  | notDiagonal (row col : Nat)
  /-- An index that is not below the size. -/
  | indexOutOfBounds (index size : Nat)
deriving DecidableEq, Repr

def ShapeError.message : ShapeError → String
  | .mulMismatch left right => s!"cannot multiply {left.text} by {right.text}"
  | .addMismatch left right => s!"cannot combine {left.text} with {right.text}"
  | .notSquare shape => s!"expected a square matrix, got {shape.text}"
  | .ragged row expected found => s!"row {row} has {found} entries, expected {expected}"
  | .lengthMismatch what expected found =>
    s!"{what.name}: expected length {expected}, found {found}"
  | .notDiagonal row col =>
    s!"expected a diagonal matrix, found a non-zero entry at ({row}, {col})"
  | .indexOutOfBounds index size => s!"index {index} out of bounds for size {size}"

end PathSum
