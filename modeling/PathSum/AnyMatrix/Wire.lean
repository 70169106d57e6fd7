import PathSum.AnyMatrix.Basic
import PathSum.Json.Encoding
import PathSum.Json.Reader

/-!
# Matrices in JSON

A matrix is written as an object with its rows, its columns and its data, row after row. It is read
from such an object with the fields in any order and with fields of other names beside them, or
from the list of the three.
-/

namespace PathSum

/-- Why a written matrix is refused. If it is of the right form, only the number of entries can be
wrong. -/
inductive WireError where
  /-- It is not the written form of a matrix. -/
  | malformed
  /-- The number of entries does not go with the shape. -/
  | shape (e : ShapeError)
deriving DecidableEq

namespace AnyMatrix

open Json

variable {α : Type} [Encoding α]

def toJson (A : AnyMatrix α) : Value :=
  .object [(some "rows", .ofInt A.rows), (some "cols", .ofInt A.cols),
    (some "data", .ofList A.data)]

/-- The matrix with the given data. A number of entries that 64 bits cannot hold is reported as the
largest that they can. -/
def ofData (rows cols : Nat) (data : Array α) : Except ShapeError (AnyMatrix α) :=
  if h : data.size = rows * cols then .ok ⟨rows, cols, ⟨⟨data, h⟩⟩⟩
  else .error (.lengthMismatch .matrixData (min (rows * cols) (UInt64.size - 1)) data.size)

/-- The only member with a name. -/
def field? (name : String) (members : List (Json.Text × Value)) : Option Value :=
  match members.filter fun member => member.1 = some name with
  | [member] => some member.2
  | _ => none

/-- The values for rows, columns and data. They stand in an object by name or in a list by place,
and members with other names are not looked at. -/
def parts? : Value → Option (Value × Value × Value)
  | .array [rows, cols, data] => some (rows, cols, data)
  | .object members => do
    if members.all fun member => member.1.isSome then
      return (← field? "rows" members, ← field? "cols" members, ← field? "data" members)
    else none
  | _ => none

/-- Rows, columns and data, if each is of its kind. -/
def fields? (value : Value) : Option (Nat × Nat × Array α) := do
  let (rows, cols, data) ← parts? value
  let rows ← rows.toWord?
  let cols ← cols.toWord?
  let .array items := data | none
  let data ← items.mapM Encoding.decode?
  return (rows, cols, data.toArray)

/-- The matrix that a value is. -/
def ofJson (value : Value) : Except WireError (AnyMatrix α) :=
  match fields? value with
  | none => .error .malformed
  | some (rows, cols, data) => (ofData rows cols data).mapError .shape

/-- The matrix that a text is. Nothing but spaces may follow it; a wrong number of entries is
reported even if something does. -/
def ofText (text : String) : Except WireError (AnyMatrix α) := do
  let some (value, rest) := read? text.toList | throw .malformed
  let A ← ofJson value
  if (skipSpace rest).isEmpty then return A else throw .malformed

end AnyMatrix

end PathSum
