import PathSum.Index
import PathSum.Matrix.Entries

/-!
# Matrices

A matrix with `m` rows and `n` columns, stored row after row. The shape is part of the type, so an
operation on matrices states the shapes that it conforms to and cannot fail.

Main statements: a matrix is determined by its entries (`Matrix.ext_entry`), and each operation is
described by the entries of its result.
-/

namespace PathSum

universe u v

/-- A matrix with `m` rows and `n` columns. -/
structure Matrix (α : Type u) (m n : Nat) where
  /-- The entries, row after row. -/
  data : Vector α (m * n)
deriving DecidableEq

namespace Matrix

variable {α : Type u} {β : Type v} {m n : Nat}

/-- The entry in row `i` and column `j`. -/
@[inline]
def entry (A : Matrix α m n) (i : Fin m) (j : Fin n) : α :=
  A.data.get (Index.pair i j)

def ofFn (f : Fin m → Fin n → α) : Matrix α m n where
  data := Vector.ofFn fun p => f (Index.fst p) (Index.snd p)

@[simp]
theorem entry_ofFn (f : Fin m → Fin n → α) (i : Fin m) (j : Fin n) :
    (ofFn f).entry i j = f i j := by
  simp [entry, ofFn]

/-- A matrix is determined by its entries. -/
theorem ext_entry {A B : Matrix α m n} (h : ∀ i j, A.entry i j = B.entry i j) : A = B := by
  obtain ⟨a⟩ := A
  obtain ⟨b⟩ := B
  congr 1
  apply ext_get
  intro p
  have hpair := h (Index.fst p) (Index.snd p)
  simpa only [entry, Index.pair_fst_snd] using hpair

/-! ## Rows and columns -/

/-- Row `i`, from left to right. -/
def row (A : Matrix α m n) (i : Fin m) : Vector α n :=
  Vector.ofFn (A.entry i)

theorem toList_row (A : Matrix α m n) (i : Fin m) : (A.row i).toList = List.ofFn (A.entry i) :=
  Vector.toList_ofFn

/-- Column `j`, from top to bottom. -/
def column (A : Matrix α m n) (j : Fin n) : Vector α m :=
  Vector.ofFn fun i => A.entry i j

def toRows (A : Matrix α m n) : List (List α) :=
  List.ofFn fun i => List.ofFn (A.entry i)

/-! ## Changes that need no arithmetic -/

/-- The matrix with one value everywhere. -/
def filled (m n : Nat) (x : α) : Matrix α m n where
  data := Vector.replicate (m * n) x

@[simp]
theorem entry_filled (x : α) (i : Fin m) (j : Fin n) : (filled m n x).entry i j = x := by
  simp [entry, filled]

def transpose (A : Matrix α m n) : Matrix α n m :=
  ofFn fun i j => A.entry j i

@[simp]
theorem entry_transpose (A : Matrix α m n) (i : Fin n) (j : Fin m) :
    A.transpose.entry i j = A.entry j i :=
  entry_ofFn ..

def map (f : α → β) (A : Matrix α m n) : Matrix β m n where
  data := A.data.map f

@[simp]
theorem entry_map (f : α → β) (A : Matrix α m n) (i : Fin m) (j : Fin n) :
    (A.map f).entry i j = f (A.entry i j) := by
  simp [entry, map]

def set (A : Matrix α m n) (i : Fin m) (j : Fin n) (x : α) : Matrix α m n where
  data := A.data.set (Index.pair i j) x (Index.pair i j).isLt

/-- Only the entry that is set changes. -/
theorem entry_set (A : Matrix α m n) (i k : Fin m) (j l : Fin n) (x : α) :
    (A.set i j x).entry k l = if k = i ∧ l = j then x else A.entry k l := by
  simp only [entry, set, get_set, Index.pair_inj]

/-- The same matrix, for a shape that is written differently. -/
def cast {m' n' : Nat} (A : Matrix α m n) (hm : m = m') (hn : n = n') : Matrix α m' n' where
  data := A.data.cast (by rw [hm, hn])

@[simp]
theorem cast_rfl (A : Matrix α m n) : A.cast rfl rfl = A := rfl

@[simp]
theorem entry_cast {m' n' : Nat} (A : Matrix α m n) (hm : m = m') (hn : n = n') (i : Fin m')
    (j : Fin n') : (A.cast hm hn).entry i j = A.entry (i.cast hm.symm) (j.cast hn.symm) := by
  subst hm hn
  rfl

end Matrix

end PathSum
