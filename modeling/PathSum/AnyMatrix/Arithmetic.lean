import PathSum.AnyMatrix.Basic
import PathSum.Matrix.Power

/-!
# Arithmetic on matrices of any shape

Each operation checks that its operands go together and then is the operation on matrices of known
shape. The dimensions of a result are exact, however large they are; the operations on stored
matrices, whose sizes are computed in 64 bits, agree with these where
`PathSum.Proofs.Matrix.Storage` says so.
-/

namespace PathSum

universe u

variable {α : Type u}

/-- An array as a vector of the expected length. -/
def checkLength (what : Operand) (n : Nat) (v : Array α) : Except ShapeError (Vector α n) :=
  if h : v.size = n then .ok ⟨v, h⟩ else .error (.lengthMismatch what n v.size)

/-- The sum of the products of corresponding entries of two vectors of one length. -/
def Weights.dotOf (w : Weights α) (u v : Array α) : Except ShapeError α :=
  (checkLength .dotOperand u.size v).map fun v => w.dot u.toVector v

/-- All products of an entry of `u` and an entry of `v`. -/
def Weights.kronVecOf (w : Weights α) (u v : Array α) : Array α :=
  (w.kronVec u.toVector v.toVector).toArray

namespace AnyMatrix

/-- Matrix times matrix, if there are as many columns on the left as rows on the right. -/
def mul (w : Weights α) (A B : AnyMatrix α) : Except ShapeError (AnyMatrix α) :=
  if h : A.cols = B.rows then .ok (of (A.matrix.mul w (B.matrix.cast h.symm rfl)))
  else .error (.mulMismatch A.shape B.shape)

def kron (w : Weights α) (A B : AnyMatrix α) : AnyMatrix α :=
  of (A.matrix.kron w B.matrix)

/-- Row vector times matrix, if the vector is as long as there are rows. -/
def vecMul (w : Weights α) (v : Array α) (A : AnyMatrix α) : Except ShapeError (Array α) :=
  (checkLength .rowVector A.rows v).map fun v => (Matrix.vecMul w v A.matrix).toArray

/-- Matrix times column vector, if the vector is as long as there are columns. -/
def mulVec (w : Weights α) (A : AnyMatrix α) (v : Array α) : Except ShapeError (Array α) :=
  (checkLength .columnVector A.cols v).map fun v => (A.matrix.mulVec w v).toArray

/-- A power of a square matrix, for every exponent. -/
def pow (w : Weights α) (A : AnyMatrix α) (k : Nat) : Except ShapeError (AnyMatrix α) :=
  A.square.map fun M => of (M.pow w k)

/-- The sum of the first powers of a square matrix. -/
def boundedStar (w : Weights α) (A : AnyMatrix α) (len : Nat) : Except ShapeError (AnyMatrix α) :=
  A.square.map fun M => of (M.boundedStar w len)

/-! ## Shapes that go together -/

theorem exists_vector {n : Nat} {v : Array α} (h : v.size = n) :
    ∃ u : Vector α n, u.toArray = v :=
  ⟨⟨v, h⟩, rfl⟩

/-- A vector of the expected length passes the check as it is. -/
theorem checkLength_toArray (what : Operand) {n : Nat} (v : Vector α n) :
    checkLength what n v.toArray = .ok v := by
  rw [checkLength, dif_pos v.size_toArray]

/-- And only such a vector does. The vector that comes out of the check is the one that went in,
with its length as part of its type. -/
theorem checkLength_eq_ok_iff {what : Operand} {n : Nat} {v : Array α} {u : Vector α n} :
    checkLength what n v = .ok u ↔ u.toArray = v := by
  constructor
  · intro h
    unfold checkLength at h
    split at h
    · cases h
      rfl
    · exact nomatch h
  · rintro rfl
    exact checkLength_toArray what u

theorem checkLength_eq_error_iff {what : Operand} {n : Nat} {v : Array α} :
    (∃ e, checkLength what n v = .error e) ↔ v.size ≠ n := by
  by_cases h : v.size = n <;> simp [checkLength, h]

variable {m n p : Nat}

/-- For shapes that go together, no check fails, and what is computed is the product of the
matrices. -/
theorem mul_of (w : Weights α) (A : Matrix α m n) (B : Matrix α n p) :
    (of A).mul w (of B) = .ok (of (A.mul w B)) :=
  dif_pos (rfl : (of A).cols = (of B).rows)

theorem vecMul_of (w : Weights α) (v : Vector α m) (A : Matrix α m n) :
    vecMul w v.toArray (of A) = .ok (Matrix.vecMul w v A).toArray := by
  have hlength : checkLength .rowVector (of A).rows v.toArray = .ok v := checkLength_toArray ..
  rw [vecMul, hlength]
  rfl

theorem mulVec_of (w : Weights α) (A : Matrix α m n) (v : Vector α n) :
    (of A).mulVec w v.toArray = .ok (A.mulVec w v).toArray := by
  have hlength : checkLength .columnVector (of A).cols v.toArray = .ok v := checkLength_toArray ..
  rw [mulVec, hlength]
  rfl

theorem pow_of (w : Weights α) (A : Matrix α n n) (k : Nat) :
    (of A).pow w k = .ok (of (A.pow w k)) := by
  rw [pow, square_of]
  rfl

theorem boundedStar_of (w : Weights α) (A : Matrix α n n) (len : Nat) :
    (of A).boundedStar w len = .ok (of (A.boundedStar w len)) := by
  rw [boundedStar, square_of]
  rfl

end AnyMatrix

theorem Weights.dotOf_toArray {n : Nat} (w : Weights α) (u v : Vector α n) :
    w.dotOf u.toArray v.toArray = .ok (w.dot u v) := by
  obtain ⟨u, rfl⟩ := u
  rw [dotOf, AnyMatrix.checkLength_toArray]
  rfl

end PathSum
