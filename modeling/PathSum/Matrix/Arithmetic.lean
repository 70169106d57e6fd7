import PathSum.Matrix.Basic
import PathSum.Weights.Basic

/-!
# Matrix arithmetic

Products, sums and Kronecker products of matrices and vectors of weights. Each entry is a sum from
the left over the inner index, so the results are fixed even where the operations on weights obey
no laws.

The Kronecker products number pairs of indices as `Index.pair` does.
-/

namespace PathSum

universe u

variable {α : Type u} {m n p q : Nat}

/-- The sum of the products of corresponding entries. -/
def Weights.dot (w : Weights α) (u v : Vector α n) : α :=
  w.sumOver n fun i => w.mul (u.get i) (v.get i)

/-- All products of an entry of `u` and an entry of `v`. -/
def Weights.kronVec (w : Weights α) (u : Vector α m) (v : Vector α n) : Vector α (m * n) :=
  Vector.ofFn fun i => w.mul (u.get (Index.fst i)) (v.get (Index.snd i))

namespace Matrix

/-! ## Special matrices -/

/-- No paths at all. -/
def zero (w : Weights α) (m n : Nat) : Matrix α m n :=
  filled m n w.zero

/-- The given weights on the diagonal, `zero` elsewhere. -/
def diagonal (w : Weights α) (d : Vector α n) : Matrix α n n :=
  ofFn fun i j => if i = j then d.get i else w.zero

/-- `one` on the diagonal, `zero` elsewhere. -/
def identity (w : Weights α) (n : Nat) : Matrix α n n :=
  ofFn fun i j => if i = j then w.one else w.zero

@[simp]
theorem entry_zero (w : Weights α) (i : Fin m) (j : Fin n) : (zero w m n).entry i j = w.zero :=
  entry_filled ..

@[simp]
theorem entry_diagonal (w : Weights α) (d : Vector α n) (i j : Fin n) :
    (diagonal w d).entry i j = if i = j then d.get i else w.zero :=
  entry_ofFn ..

@[simp]
theorem entry_identity (w : Weights α) (i j : Fin n) :
    (identity w n).entry i j = if i = j then w.one else w.zero :=
  entry_ofFn ..

/-! ## Products and sums -/

def mul (w : Weights α) (A : Matrix α m n) (B : Matrix α n p) : Matrix α m p :=
  ofFn fun i j => w.sumOver n fun k => w.mul (A.entry i k) (B.entry k j)

def add (w : Weights α) (A B : Matrix α m n) : Matrix α m n where
  data := A.data.zipWith w.add B.data

def vecMul (w : Weights α) (v : Vector α m) (A : Matrix α m n) : Vector α n :=
  Vector.ofFn fun j => w.sumOver m fun i => w.mul (v.get i) (A.entry i j)

def mulVec (w : Weights α) (A : Matrix α m n) (v : Vector α n) : Vector α m :=
  Vector.ofFn fun i => w.dot (A.row i) v

/-- The Kronecker product: all products of an entry of `A` and an entry of `B`. -/
def kron (w : Weights α) (A : Matrix α m n) (B : Matrix α p q) : Matrix α (m * p) (n * q) :=
  ofFn fun i j =>
    w.mul (A.entry (Index.fst i) (Index.fst j)) (B.entry (Index.snd i) (Index.snd j))

@[simp]
theorem entry_mul (w : Weights α) (A : Matrix α m n) (B : Matrix α n p) (i : Fin m) (j : Fin p) :
    (A.mul w B).entry i j = w.sumOver n fun k => w.mul (A.entry i k) (B.entry k j) :=
  entry_ofFn ..

@[simp]
theorem entry_add (w : Weights α) (A B : Matrix α m n) (i : Fin m) (j : Fin n) :
    (A.add w B).entry i j = w.add (A.entry i j) (B.entry i j) := by
  simp [entry, add]

@[simp]
theorem get_vecMul (w : Weights α) (v : Vector α m) (A : Matrix α m n) (j : Fin n) :
    (vecMul w v A).get j = w.sumOver m fun i => w.mul (v.get i) (A.entry i j) := by
  simp [vecMul]

@[simp]
theorem get_mulVec (w : Weights α) (A : Matrix α m n) (v : Vector α n) (i : Fin m) :
    (A.mulVec w v).get i = w.sumOver n fun k => w.mul (A.entry i k) (v.get k) := by
  simp [mulVec, Weights.dot, row]

@[simp]
theorem entry_kron (w : Weights α) (A : Matrix α m n) (B : Matrix α p q) (i : Fin (m * p))
    (j : Fin (n * q)) :
    (A.kron w B).entry i j =
      w.mul (A.entry (Index.fst i) (Index.fst j)) (B.entry (Index.snd i) (Index.snd j)) :=
  entry_ofFn ..

/-- Whether all entries count as equal. -/
def same (w : Weights α) (A B : Matrix α m n) : Bool :=
  A.data.isEqv B.data w.same

end Matrix

end PathSum
