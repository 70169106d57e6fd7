import PathSum.Matrix.Basic
import PathSum.ShapeError

/-!
# Matrices of any shape

A matrix together with its shape. Which operands go together is found out when an operation is
used, and the operation says so when they do not.

Dimensions are natural numbers here, so a product of matrices always has all its entries. What
becomes of dimensions and positions that 64 bits cannot hold is a question about stored matrices,
in `PathSum.AnyMatrix.Stored`.
-/

namespace PathSum

universe u v

/-- A matrix of any shape. -/
structure AnyMatrix (α : Type u) where
  rows : Nat
  cols : Nat
  matrix : Matrix α rows cols

/-- An entry that does not exist. -/
structure OutOfRange where
  row : Nat
  col : Nat
deriving DecidableEq, Repr

/-- How a missing entry is reported. -/
def OutOfRange.message (e : OutOfRange) : String :=
  s!"index ({e.row}, {e.col}) out of range"

namespace AnyMatrix

variable {α : Type u} {β : Type v}

/-- A matrix with its shape. -/
def of {m n : Nat} (A : Matrix α m n) : AnyMatrix α :=
  ⟨m, n, A⟩

def shape (A : AnyMatrix α) : Shape :=
  ⟨A.rows, A.cols⟩

/-- A matrix of a known shape is one of that type. -/
theorem exists_of_shape {A : AnyMatrix α} {m n : Nat} (h : A.shape = ⟨m, n⟩) :
    ∃ M : Matrix α m n, of M = A := by
  obtain ⟨rows, cols, M⟩ := A
  cases h
  exact ⟨M, rfl⟩

def data (A : AnyMatrix α) : List α :=
  A.matrix.data.toList

/-! ## Nested rows -/

/-- Rows of one length hold as many entries as there are rows times that length. This is why nested
rows that pass the check of their lengths make a matrix of known shape. -/
theorem size_flatten_of_lengths {cols : Nat} {rows : List (List α)}
    (h : rows.findIdx? (fun row => row.length != cols) = none) :
    rows.flatten.toArray.size = rows.length * cols := by
  rw [List.findIdx?_eq_none_iff] at h
  rw [List.size_toArray]
  induction rows with
  | nil => simp
  | cons row rows ih =>
    have hrow := h row (by simp)
    simp only [bne_eq_false_iff_eq] at hrow
    have hrows := ih fun r hr => h r (by simp [hr])
    rw [List.flatten_cons, List.length_append, hrow, hrows, List.length_cons, Nat.succ_mul,
      Nat.add_comm]

/-- The matrix with the given rows. All rows must be as long as the first. -/
def ofRows (rows : List (List α)) : Except ShapeError (AnyMatrix α) :=
  let cols := (rows.head?.map List.length).getD 0
  match h : rows.findIdx? fun row => row.length != cols with
  | none => .ok ⟨rows.length, cols, ⟨⟨rows.flatten.toArray, size_flatten_of_lengths h⟩⟩⟩
  | some i => .error (.ragged i cols (rows.getD i []).length)

/-- All rows. -/
def toRows (A : AnyMatrix α) : List (List α) :=
  A.matrix.toRows

/-! ## Entries -/

/-- The entry in row `i` and column `j`, if both exist. -/
def get? (A : AnyMatrix α) (i j : Nat) : Option α :=
  if h : i < A.rows ∧ j < A.cols then some (A.matrix.entry ⟨i, h.1⟩ ⟨j, h.2⟩) else none

theorem get?_of_iff {m n : Nat} {A : Matrix α m n} {i : Fin m} {j : Nat} {x : α} :
    (of A).get? i j = some x ↔ ∃ hj : j < n, A.entry i ⟨j, hj⟩ = x := by
  have hi : i < (of A).rows := i.isLt
  rw [get?]
  split
  · next h => exact ⟨fun hx => ⟨h.2, Option.some.inj hx⟩, fun ⟨_, hx⟩ => congrArg some hx⟩
  · next h => exact ⟨nofun, fun ⟨hj, _⟩ => absurd ⟨hi, hj⟩ h⟩

/-- The entry in row `i` and column `j`. -/
def index (A : AnyMatrix α) (i j : Nat) : Except OutOfRange α :=
  match A.get? i j with
  | some x => .ok x
  | none => .error ⟨i, j⟩

/-- The matrix with another entry in row `i` and column `j`, if both exist. -/
def set (A : AnyMatrix α) (i j : Nat) (x : α) : Except OutOfRange (AnyMatrix α) :=
  if h : i < A.rows ∧ j < A.cols then .ok (of (A.matrix.set ⟨i, h.1⟩ ⟨j, h.2⟩ x))
  else .error ⟨i, j⟩

/-- The part of the data that row `i` takes up, if there is so much. A row without columns takes up
nothing, so it is always there. -/
def row? (A : AnyMatrix α) (i : Nat) : Option (List α) :=
  if h : i < A.rows then some (A.matrix.row ⟨i, h⟩).toList
  else if A.cols = 0 then some [] else none

/-! ## Changes -/

def transpose (A : AnyMatrix α) : AnyMatrix α :=
  of A.matrix.transpose

/-! ## Square matrices -/

/-- The matrix as one with as many columns as rows. -/
def square (A : AnyMatrix α) : Except ShapeError (Matrix α A.rows A.rows) :=
  if h : A.rows = A.cols then .ok (A.matrix.cast rfl h.symm) else .error (.notSquare A.shape)

theorem square_of {n : Nat} (A : Matrix α n n) : (of A).square = .ok A :=
  dif_pos rfl

theorem square_eq_error {A : AnyMatrix α} (h : A.rows ≠ A.cols) :
    A.square = .error (.notSquare A.shape) :=
  dif_neg h

/-- The matrix as one with `n` rows and columns. That it is not square is reported first. -/
def squareOf (A : AnyMatrix α) (n : Nat) (what : Operand) : Except ShapeError (Matrix α n n) :=
  if hsquare : A.rows = A.cols then
    if hn : A.rows = n then .ok (A.matrix.cast hn (hsquare ▸ hn))
    else .error (.lengthMismatch what n A.rows)
  else .error (.notSquare A.shape)

theorem squareOf_of {n : Nat} (A : Matrix α n n) (what : Operand) :
    (of A).squareOf n what = .ok A := by
  simp [squareOf, of]

/-- A matrix passes the check if it has the expected size, and stays what it is. So a caller who has
the result knows the operand, and the types need not be compared. -/
theorem squareOf_eq_ok_iff {A : AnyMatrix α} {n : Nat} {what : Operand} {M : Matrix α n n} :
    A.squareOf n what = .ok M ↔ of M = A := by
  constructor
  · intro h
    obtain ⟨rows, cols, A⟩ := A
    unfold squareOf at h
    split at h
    · next hsquare =>
      split at h
      · next hn =>
        cases hsquare
        cases hn
        cases h
        rfl
      · exact nomatch h
    · exact nomatch h
  · rintro rfl
    exact squareOf_of M what

/-- All other shapes are refused, with one error or the other. Which of the two it is depends on
whether the matrix is square at all. -/
theorem squareOf_eq_error_iff {A : AnyMatrix α} {n : Nat} {what : Operand} :
    (∃ e, A.squareOf n what = .error e) ↔ A.shape ≠ ⟨n, n⟩ := by
  obtain ⟨rows, cols, A⟩ := A
  simp only [squareOf, shape, ne_eq, Shape.mk.injEq]
  split
  · next hsquare =>
    subst hsquare
    split
    · next hn => simp [hn]
    · next hn => simp [hn]
  · next hsquare =>
    have hshape : ¬(rows = n ∧ cols = n) := fun h => hsquare (h.1.trans h.2.symm)
    simp [hshape]

end AnyMatrix

end PathSum
