import PathSum.Json.Decimal
import PathSum.Text.Quoted
import PathSum.Weights.Basic

/-!
# Weights in JSON

How the values of each kind of weight are written and read. Floating-point numbers are written by
their bits, since no decimal is needed to carry them, and read as decimals.
-/

namespace PathSum.Json

/-- Values with a written form. -/
class Encoding (α : Type) where
  encode : α → Value
  decode? : Value → Option α

def Value.ofInt (n : Int) : Value :=
  .number (.ofInt n)

def Value.toInt? : Value → Option Int
  | .number n => n.toInt?
  | _ => none

/-- The natural number of at most 64 bits that a value is. -/
def Value.toWord? (value : Value) : Option Nat := do
  let n ← value.toInt?
  if 0 ≤ n ∧ n < UInt64.size then some n.toNat else none

instance : Encoding Bool where
  encode := .bool
  decode?
    | .bool b => some b
    | _ => none

instance : Encoding UInt64 where
  encode n := .ofInt n.toNat
  decode? value := value.toWord?.map UInt64.ofNat

instance : Encoding Int64 where
  encode n := .ofInt n.toInt
  decode? value := do
    let n ← value.toInt?
    if Int64.minValue.toInt ≤ n ∧ n ≤ Int64.maxValue.toInt then some (Int64.ofInt n) else none

instance : Encoding Float where
  encode x := if x.isFinite then .string (some (Text.bits x)) else .null
  decode?
    | .number n => n.toFloat?
    | _ => none

def Value.ofList {α : Type} [Encoding α] (items : List α) : Value :=
  .array (items.map Encoding.encode)

/-- Weights are written by what they can be told apart by. -/
def ofWeights {α : Type} (w : Weights α) : Value :=
  match w.tolerance with
  | none => .null
  | some x => .object [(some "tolerance", Encoding.encode x)]

end PathSum.Json
