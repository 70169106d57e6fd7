import PathSum.AnyMatrix.Machine
import PathSum.AnyMatrix.Unchecked
import PathSum.AnyMatrix.Wire

/-!
# Matrices as they are stored

A matrix is stored as two dimensions and an array with its entries, row after row. Nothing but the
ways to make one keeps the array as long as the dimensions ask for, and an operation that relies on
it reads past the end of an array that is shorter. Sizes and positions are computed by a machine,
so each operation that needs one says on which.

`AnyMatrix.stored` is how a matrix of known shape is stored. Each operation has a lemma named after
it that says what it does to such a matrix, as long as the machine holds the shapes that it works
on. Those for access and nested rows stand here, those for arithmetic in
`PathSum.Proofs.Matrix.Storage`.
-/

namespace PathSum

/-- Two dimensions, and entries of any number. That there are as many entries as the dimensions ask
for is not part of the type; it is what the ways to make a matrix see to. -/
structure StoredMatrix (α : Type) where
  rows : Nat
  cols : Nat
  data : Array α
deriving BEq

/-- The matrix without what is known about the number of its entries. -/
def Matrix.stored {α : Type} {m n : Nat} (A : Matrix α m n) : StoredMatrix α where
  rows := m
  cols := n
  data := A.data.toArray

@[simp]
theorem Matrix.rows_stored {α : Type} {m n : Nat} (A : Matrix α m n) : A.stored.rows = m := rfl

@[simp]
theorem Matrix.cols_stored {α : Type} {m n : Nat} (A : Matrix α m n) : A.stored.cols = n := rfl

/-- How a matrix is stored that has all its entries. -/
def AnyMatrix.stored {α : Type} (A : AnyMatrix α) : StoredMatrix α :=
  A.matrix.stored

namespace StoredMatrix

variable {α β : Type}

def shape (A : StoredMatrix α) : Shape :=
  ⟨A.rows, A.cols⟩

def isSquare (A : StoredMatrix α) : Bool :=
  A.rows == A.cols

/-! ## Entries -/

/-- The entry in row `i` and column `j`, if both exist. The indices are compared with the dimensions
before a position is computed. -/
def get (m : Machine) (A : StoredMatrix α) (i j : Nat) : Except MatrixFault (Option α) :=
  if i < A.rows ∧ j < A.cols then do
    let position ← m.word (i * A.cols + j)
    return A.data[position]?
  else return none

/-- The entry in row `i` and column `j`, which have to exist. If they do, the data may still end
before that entry. -/
def index (m : Machine) (A : StoredMatrix α) (i j : Nat) : Except MatrixFault α :=
  if i < A.rows ∧ j < A.cols then do
    let position ← m.word (i * A.cols + j)
    match A.data[position]? with
    | some x => return x
    | none => throw (.pastData position)
  else throw (.outOfRange ⟨i, j⟩)

/-- Changes the entry in row `i` and column `j`, which have to exist. The dimensions and the other
entries stay. -/
def set (m : Machine) (A : StoredMatrix α) (i j : Nat) (x : α) :
    Except MatrixFault (StoredMatrix α) :=
  if i < A.rows ∧ j < A.cols then do
    let position ← m.word (i * A.cols + j)
    if h : position < A.data.size then return { A with data := A.data.set position x h }
    else throw (.pastData position)
  else throw (.outOfRange ⟨i, j⟩)

/-- The part of the data that row `i` takes up. Whether there is such a row is not asked, only
whether the two positions are those of a part of the data. -/
def row (m : Machine) (A : StoredMatrix α) (i : Nat) : Except MatrixFault (List α) := do
  let first ← m.word (i * A.cols)
  let next ← m.word (i + 1)
  let past ← m.word (next * A.cols)
  if first ≤ past ∧ past ≤ A.data.size then return (A.data.extract first past).toList
  else throw (.noSlice first past)

/-- All rows. There has to be room for so many. -/
def toRows (m : Machine) (A : StoredMatrix α) : Except MatrixFault (List (List α)) := do
  Machine.request m.rowCapacity A.rows
  (List.finRange A.rows).mapM fun i : Fin A.rows => A.row m i

/-! ## Making matrices -/

/-- The matrix with one value everywhere. -/
def filled (m : Machine) (rows cols : Nat) (x : α) : Except MatrixFault (StoredMatrix α) := do
  let size ← m.entries rows cols
  return ⟨rows, cols, Array.replicate size x⟩

/-- Asks for the entries row after row, and puts each one at the end of the data. The array is made
for all of them in advance, and it grows if more are put into it. -/
def fromFn (m : Machine) (rows cols : Nat) (f : Nat → Nat → Except MatrixFault α) :
    Except MatrixFault (StoredMatrix α) := do
  let _ ← m.entries rows cols
  let data ← Fin.foldlM rows (fun data i =>
    Fin.foldlM cols (fun data j => (f i j).map data.push) data) #[]
  return ⟨rows, cols, data⟩

/-- The data of the given rows, the first of which is row `i`, after the data of those before. -/
def joinRows (cols : Nat) : (i : Nat) → List (List α) → Array α → Except ShapeError (Array α)
  | _, [], data => .ok data
  | i, row :: rows, data =>
    if row.length ≠ cols then .error (.ragged i cols row.length)
    else joinRows cols (i + 1) rows (data ++ row.toArray)

/-- The matrix with the given rows. All rows must be as long as the first, for which the array is
made before the others are looked at. -/
def ofRows (m : Machine) (rows : List (List α)) : Except MatrixFault (StoredMatrix α) := do
  let cols := (rows.head?.map List.length).getD 0
  let _ ← m.entries rows.length cols
  let data ← (joinRows cols 0 rows #[]).mapError .shape
  return ⟨rows.length, cols, data⟩

/-- The number of entries that a shape asks for. If 64 bits cannot hold it, it is the largest number
that they can hold. -/
def expectedSize (rows cols : Nat) : Nat :=
  if rows * cols < UInt64.size then rows * cols else UInt64.size - 1

/-- The matrix with the given data. -/
def ofData (rows cols : Nat) (data : Array α) : Except ShapeError (StoredMatrix α) :=
  if data.size = expectedSize rows cols then .ok ⟨rows, cols, data⟩
  else .error (.lengthMismatch .matrixData (expectedSize rows cols) data.size)

/-- The members of a written matrix that are its own. -/
def members [Json.Encoding α] (A : StoredMatrix α) : List (Json.Text × Json.Value) :=
  [(some "rows", .ofInt A.rows), (some "cols", .ofInt A.cols), (some "data", .ofList A.data.toList)]

def toJson [Json.Encoding α] (A : StoredMatrix α) : Json.Value :=
  .object A.members

/-- The matrix that a value is. -/
def ofJson [Json.Encoding α] (value : Json.Value) : Except WireError (StoredMatrix α) :=
  match AnyMatrix.fields? value with
  | none => .error .malformed
  | some (rows, cols, data) => (ofData rows cols data).mapError .shape

/-- No paths at all. -/
def zero (m : Machine) (w : Weights α) (rows cols : Nat) : Except MatrixFault (StoredMatrix α) :=
  filled m rows cols w.zero

/-- `one` on the diagonal, `zero` elsewhere. -/
def identity (m : Machine) (w : Weights α) (n : Nat) : Except MatrixFault (StoredMatrix α) :=
  fromFn m n n fun i j => .ok (if i = j then w.one else w.zero)

/-- The given weights on the diagonal, `zero` elsewhere. -/
def diagonal (m : Machine) (w : Weights α) (d : Array α) : Except MatrixFault (StoredMatrix α) :=
  fromFn m d.size d.size fun i j =>
    if i = j then
      match d[i]? with
      | some x => .ok x
      | none => .error (.pastData i)
    else .ok w.zero

/-! ## Operations -/

/-- Another entry for each one that is stored, however many there are. -/
def map (f : α → β) (A : StoredMatrix α) : StoredMatrix β :=
  ⟨A.rows, A.cols, A.data.map f⟩

/-- Rows become columns. Every entry is asked for at its position in the data. -/
def transpose (m : Machine) (A : StoredMatrix α) : Except MatrixFault (StoredMatrix α) :=
  fromFn m A.cols A.rows fun i j => A.index m j i

/-- Kronecker product, with a quotient and a remainder for the place in each operand. The dimensions
of the result are products too. -/
def kron (m : Machine) (w : Weights α) (A B : StoredMatrix α) :
    Except MatrixFault (StoredMatrix α) := do
  let rows ← m.word (A.rows * B.rows)
  let cols ← m.word (A.cols * B.cols)
  fromFn m rows cols fun i j => do
    let a ← A.index m (i / B.rows) (j / B.cols)
    let b ← B.index m (i % B.rows) (j % B.cols)
    return w.mul a b

/-- Combines the data, as far as both have some. -/
def add (w : Weights α) (A B : StoredMatrix α) : Except MatrixFault (StoredMatrix α) :=
  if A.shape = B.shape then .ok ⟨A.rows, A.cols, Array.zipWith w.add A.data B.data⟩
  else .error (.shape (.addMismatch A.shape B.shape))

/-- Whether the weights take two matrices for equal: the same shape, and no entry that differs. -/
def same (w : Weights α) (A B : StoredMatrix α) : Bool :=
  A.shape = B.shape && (Array.zipWith w.same A.data B.data).all id

/-- Adds a multiple of row `k` of `B` to row `i` of what there is, entry by entry. Each entry is
read, changed and written back in place. -/
def addMultiple (m : Machine) (w : Weights α) (B : StoredMatrix α) (a : α) (k i : Nat)
    (sums : StoredMatrix α) : Except MatrixFault (StoredMatrix α) :=
  Fin.foldlM B.cols (fun sums j => do
    let b ← B.index m k j
    let sum ← sums.index m i j
    sums.set m i j (w.add sum (w.mul a b))) sums

/-- The multiples of the rows of `B` that belong to row `i` of the result. -/
def addMultiples (m : Machine) (w : Weights α) (A B : StoredMatrix α) (i : Nat)
    (sums : StoredMatrix α) : Except MatrixFault (StoredMatrix α) :=
  Fin.foldlM A.cols (fun sums k => do
    let a ← A.index m i k
    B.addMultiple m w a k i sums) sums

/-- Matrix times matrix. All entries start at zero, and what belongs to them is added in place. -/
def mulUnchecked (m : Machine) (w : Weights α) (A B : StoredMatrix α) :
    Except MatrixFault (StoredMatrix α) := do
  let sums ← zero m w A.rows B.cols
  Fin.foldlM A.rows (fun sums i => A.addMultiples m w B i sums) sums

/-- Matrix times matrix, if the first has as many columns as the second has rows. -/
def mul (m : Machine) (w : Weights α) (A B : StoredMatrix α) :
    Except MatrixFault (StoredMatrix α) :=
  if A.cols = B.rows then A.mulUnchecked m w B
  else .error (.shape (.mulMismatch A.shape B.shape))

/-- Adds a multiple of row `i` to the sums, one for each column. -/
def addRow (m : Machine) (w : Weights α) (A : StoredMatrix α) (x : α) (i : Nat)
    (sums : Vector α A.cols) : Except MatrixFault (Vector α A.cols) :=
  Vector.ofFnM fun j => (A.index m i j).map fun a => w.add (sums.get j) (w.mul x a)

/-- Row vector times matrix. All sums start at zero and grow together, row after row. There has to
be room for as many sums as there are columns. -/
def vecMul (m : Machine) (w : Weights α) (v : Array α) (A : StoredMatrix α) :
    Except MatrixFault (Array α) :=
  if v.size = A.rows then do
    Machine.request m.capacity A.cols
    let sums ← Fin.foldlM v.size (fun sums i => A.addRow m w v[i] i sums)
      (Vector.replicate A.cols w.zero)
    return sums.toArray
  else .error (.shape (.lengthMismatch .rowVector A.rows v.size))

/-- Matrix times column vector. Each row is read as a whole, and its sum is finished before the next
one begins. -/
def mulVec (m : Machine) (w : Weights α) (A : StoredMatrix α) (v : Array α) :
    Except MatrixFault (Array α) :=
  if v.size = A.cols then do
    Machine.request m.capacity A.rows
    let sums ← (List.finRange A.rows).mapM fun i : Fin A.rows =>
      (A.row m i).map fun row => w.dotUnchecked row.toArray v
    return sums.toArray
  else .error (.shape (.lengthMismatch .columnVector A.cols v.size))

/-- `acc` times `base ^ k`. -/
def mulPow (m : Machine) (w : Weights α) (acc base : StoredMatrix α) (k : Nat) :
    Except MatrixFault (StoredMatrix α) :=
  if k = 0 then .ok acc
  else do
    let acc ← if k % 2 = 1 then acc.mulUnchecked m w base else .ok acc
    if k / 2 = 0 then .ok acc
    else
      let base ← base.mulUnchecked m w base
      mulPow m w acc base (k / 2)
termination_by k

/-- A power of a square matrix. The shape is checked first, also where no factor is needed. -/
def pow (m : Machine) (w : Weights α) (A : StoredMatrix α) (k : Nat) :
    Except MatrixFault (StoredMatrix α) :=
  if A.rows = A.cols then do
    let acc ← identity m w A.rows
    mulPow m w acc A k
  else .error (.shape (.notSquare A.shape))

/-- Adds the next `steps` powers to `total`, where `power` is the last power that it holds. -/
def addPowers (m : Machine) (w : Weights α) (A : StoredMatrix α) :
    (steps : Nat) → (total power : StoredMatrix α) → Except MatrixFault (StoredMatrix α)
  | 0, total, _ => .ok total
  | steps + 1, total, power => do
    let power ← power.mulUnchecked m w A
    let total ← total.add w power
    addPowers m w A steps total power

/-- The sum of the first powers of a square matrix. The shape is checked first; then powers and
total grow together, one factor at a time. -/
def boundedStar (m : Machine) (w : Weights α) (A : StoredMatrix α) (len : Nat) :
    Except MatrixFault (StoredMatrix α) :=
  if A.rows = A.cols then do
    let acc ← identity m w A.rows
    addPowers m w A len acc acc
  else .error (.shape (.notSquare A.shape))

/-! ## Matrices that are all there -/

/-- All entries are there, and the machine holds the shape. -/
structure Whole (m : Machine) (A : StoredMatrix α) : Prop where
  holds : m.Holds A.rows A.cols
  size_data : A.data.size = A.rows * A.cols

/-- A matrix that is all there is a matrix of known shape, stored. -/
theorem Whole.exists_stored {m : Machine} {A : StoredMatrix α} (h : A.Whole m) :
    ∃ T : AnyMatrix α, m.Holds T.rows T.cols ∧ T.stored = A := by
  obtain ⟨rows, cols, data⟩ := A
  exact ⟨⟨rows, cols, ⟨⟨data, h.size_data⟩⟩⟩, h.holds, rfl⟩

end StoredMatrix

/-! ## Matrices of known shape -/

namespace AnyMatrix

variable {α β : Type}

@[simp]
theorem rows_stored (A : AnyMatrix α) : A.stored.rows = A.rows := rfl

@[simp]
theorem cols_stored (A : AnyMatrix α) : A.stored.cols = A.cols := rfl

/-- A matrix of known shape has one entry for each place. -/
theorem size_data_stored (A : AnyMatrix α) : A.stored.data.size = A.rows * A.cols :=
  A.matrix.data.size_toArray

/-- So it is all there, on every machine that holds its shape. -/
theorem whole_stored {m : Machine} {A : AnyMatrix α} (h : m.Holds A.rows A.cols) :
    A.stored.Whole m where
  holds := h
  size_data := A.size_data_stored

/-- Matrices that are stored alike are alike: the two dimensions and the array of entries are all
there is to a matrix of known shape. -/
theorem stored_inj {A B : AnyMatrix α} : A.stored = B.stored ↔ A = B := by
  constructor
  · intro h
    obtain ⟨m, n, ⟨a⟩⟩ := A
    obtain ⟨_, _, ⟨b⟩⟩ := B
    obtain ⟨rfl, rfl, hdata⟩ := StoredMatrix.mk.inj h
    obtain rfl : a = b := Vector.toArray_inj.mp hdata
    rfl
  · rintro rfl
    rfl

/-! ### Entries -/

/-- The entry in row `i` and column `j` is at position `i * cols + j` of the data. -/
theorem getElem?_data_stored (A : AnyMatrix α) {i j : Nat} (hi : i < A.rows) (hj : j < A.cols) :
    A.stored.data[i * A.cols + j]? = some (A.matrix.entry ⟨i, hi⟩ ⟨j, hj⟩) :=
  getElem?_toArray_iff.mpr ⟨Index.pair_lt ⟨i, hi⟩ ⟨j, hj⟩, rfl⟩

section
variable {m : Machine} {A : AnyMatrix α} (hA : m.Holds A.rows A.cols)
include hA

/-- On a machine that holds the shape, no position is too large. What is found is the entry of the
matrix. -/
theorem get_stored (i j : Nat) : A.stored.get m i j = .ok (A.get? i j) := by
  rw [StoredMatrix.get, rows_stored, cols_stored, get?]
  by_cases h : i < A.rows ∧ j < A.cols
  · rw [if_pos h, dif_pos h, hA.word_position h.1 h.2, ok_bind, A.getElem?_data_stored h.1 h.2]
    rfl
  · rw [if_neg h, dif_neg h]
    rfl

/-- The same with an error where there is no such entry. The position is below the number of
entries, so the machine computes it as it is. -/
theorem index_stored (i j : Nat) :
    A.stored.index m i j = (A.index i j).mapError .outOfRange := by
  rw [StoredMatrix.index, rows_stored, cols_stored]
  by_cases h : i < A.rows ∧ j < A.cols
  · rw [if_pos h, hA.word_position h.1 h.2, ok_bind, A.getElem?_data_stored h.1 h.2,
      index_eq_ok h.1 h.2]
    rfl
  · rw [if_neg h, index, get?, dif_neg h]
    rfl

/-- Changing what is stored is storing what was changed. The array keeps its size, and the other
positions keep their entries. -/
theorem set_stored (i j : Nat) (x : α) :
    A.stored.set m i j x = ((A.set i j x).map stored).mapError .outOfRange := by
  rw [StoredMatrix.set, rows_stored, cols_stored]
  by_cases h : i < A.rows ∧ j < A.cols
  · have hlt : i * A.cols + j < A.stored.data.size :=
      A.size_data_stored ▸ Index.pair_lt ⟨i, h.1⟩ ⟨j, h.2⟩
    rw [if_pos h, hA.word_position h.1 h.2, ok_bind, dif_pos hlt, set, dif_pos h]
    rfl
  · rw [if_neg h, set, dif_neg h]
    rfl

end

/-- The entries of a row follow one another. They begin where as many whole rows end as come before,
and there are as many as columns. -/
theorem extract_data_stored (A : AnyMatrix α) (i : Fin A.rows) :
    (A.stored.data.extract (i * A.cols) ((i + 1) * A.cols)).toList =
      List.ofFn (A.matrix.entry i) := by
  have hrow : (i + 1) * A.cols ≤ A.stored.data.size :=
    A.size_data_stored ▸ Nat.mul_le_mul_right A.cols i.isLt
  have hwidth : (i + 1) * A.cols - i * A.cols = A.cols := by
    rw [Nat.succ_mul, Nat.add_sub_cancel_left]
  apply List.ext_getElem?
  intro j
  rw [Array.getElem?_toList, Array.getElem?_extract, Nat.min_eq_left hrow, hwidth,
    List.getElem?_ofFn]
  by_cases hj : j < A.cols
  · rw [if_pos hj, dif_pos hj]
    exact A.getElem?_data_stored i.isLt hj
  · rw [if_neg hj, dif_neg hj]

/-- As long as the two ends of the row are computed as they are, a row that there is is found, and
of the others only the empty rows of a matrix without columns. -/
theorem row_stored {m : Machine} (A : AnyMatrix α) {i : Nat} (hnext : i + 1 < UInt64.size)
    (hpast : (i + 1) * A.cols < UInt64.size) :
    A.stored.row m i = match A.row? i with
      | some row => .ok row
      | none => .error (.noSlice (i * A.cols) ((i + 1) * A.cols)) := by
  have hstart : i * A.cols ≤ (i + 1) * A.cols := Nat.mul_le_mul_right A.cols (Nat.le_succ i)
  rw [StoredMatrix.row, cols_stored, Machine.word_of_lt (Nat.lt_of_le_of_lt hstart hpast), ok_bind,
    Machine.word_of_lt hnext, ok_bind, Machine.word_of_lt hpast, ok_bind, size_data_stored, row?]
  by_cases hi : i < A.rows
  · rw [if_pos ⟨hstart, Nat.mul_le_mul_right A.cols hi⟩, dif_pos hi, A.extract_data_stored ⟨i, hi⟩,
      Matrix.toList_row]
    rfl
  · rw [dif_neg hi]
    by_cases hcols : A.cols = 0
    · rw [if_pos hcols, hcols]
      simp [pure, Except.pure]
    · -- the row after the last begins where the data ends.
      have hend : A.rows * A.cols < (i + 1) * A.cols :=
        Nat.mul_lt_mul_of_pos_right (Nat.lt_succ_of_le (Nat.le_of_not_lt hi))
          (Nat.pos_of_ne_zero hcols)
      rw [if_neg hcols, if_neg fun h => absurd h.2 (Nat.not_le.mpr hend)]
      rfl

/-- A row that there is is found by any machine that holds the matrix. -/
theorem row_stored_of_lt {m : Machine} {A : AnyMatrix α} (hA : m.Holds A.rows A.cols)
    (i : Fin A.rows) : A.stored.row m i = .ok (List.ofFn (A.matrix.entry i)) := by
  have hend : (i + 1) * A.cols ≤ A.rows * A.cols := Nat.mul_le_mul_right A.cols i.isLt
  rw [A.row_stored (Nat.lt_of_le_of_lt i.isLt hA.rows_lt) (Nat.lt_of_le_of_lt hend hA.size_lt),
    row?, dif_pos i.isLt, Matrix.toList_row]

/-- All rows are there, if there is room for so many of them. Each is cut out of the data at the two
positions where it begins and ends. -/
theorem toRows_stored {m : Machine} {A : AnyMatrix α} (hA : m.Holds A.rows A.cols)
    (hrows : A.rows ≤ m.rowCapacity) : A.stored.toRows m = .ok A.toRows := by
  have hrow : (fun i : Fin A.rows => A.stored.row m i) =
      fun i => pure (List.ofFn (A.matrix.entry i)) :=
    funext fun i => row_stored_of_lt hA i
  have hread : A.stored.toRows m =
      .ok ((List.finRange A.rows).map fun i => List.ofFn (A.matrix.entry i)) := by
    rw [StoredMatrix.toRows, rows_stored, Machine.request_eq_ok hrows, ok_bind]
    show (List.finRange A.rows).mapM (fun i : Fin A.rows => A.stored.row m i) = _
    rw [hrow]
    exact List.mapM_pure
  rw [hread, toRows, Matrix.toRows, List.finRange, List.map_ofFn]
  rfl

/-! ### Nested rows -/

/-- Rows are joined up to the first one that has another length. Its number and length are reported;
if there is none, all entries are there, row after row. -/
theorem joinRows_eq (cols i : Nat) (rows : List (List α)) (data : Array α) :
    StoredMatrix.joinRows cols i rows data =
      match rows.findIdx? fun row => row.length != cols with
      | none => .ok (data ++ rows.flatten.toArray)
      | some k => .error (.ragged (i + k) cols (rows.getD k []).length) := by
  induction rows generalizing i data with
  | nil => simp [StoredMatrix.joinRows]
  | cons row rows ih =>
    rw [StoredMatrix.joinRows, List.findIdx?_cons]
    by_cases hrow : row.length = cols
    · rw [if_neg (not_not_intro hrow), ih, if_neg (by simp [hrow])]
      cases rows.findIdx? fun row => row.length != cols with
      | none => simp
      | some k => simp [Nat.add_comm 1 k, Nat.add_assoc]
    · rw [if_pos hrow, if_pos (by simp [hrow])]
      simp

/-- Nested rows are joined to what they give as a matrix of known shape, or refused alike, once an
array for them is made. -/
theorem ofRows_stored {m : Machine} {rows : List (List α)}
    (hrows : m.Holds rows.length ((rows.head?.map List.length).getD 0)) :
    StoredMatrix.ofRows m rows = ((ofRows rows).map stored).mapError .shape := by
  rw [StoredMatrix.ofRows, hrows.entries_eq_ok, ok_bind, joinRows_eq, ofRows]
  -- both sides look for the first row of another length.
  split
  · next hnone =>
    split
    · rw [Array.empty_append]
      rfl
    · next k hsome => exact absurd (hnone.symm.trans hsome) nofun
  · next k hsome =>
    split
    · next hnone => exact absurd (hnone.symm.trans hsome) nofun
    · next l hsome' =>
      obtain rfl : k = l := Option.some.inj (hsome.symm.trans hsome')
      rw [Nat.zero_add]
      rfl

end AnyMatrix

end PathSum
