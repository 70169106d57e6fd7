import PathSum.Proofs.Matrix.Storage
import PathSum.Weights.FixedWidth

/-!
# The order of the sums in a product

There is a product of two matrices, of a vector and a matrix, of a matrix and a vector, and of two
vectors. The first two add up their entries in place, and go along the rows of the second factor;
the other two finish one entry before they start the next. All the same, every entry of every
product is the same sum, from the left and in ascending order. So the four agree exactly, whatever
the operations on the weights are, and also where these round.

* `row_mul`, `column_mul`, `dot_row_column`: a product of matrices, by rows, columns and entries.
* `StoredMatrix.products_agree`: the same of the loops over stored matrices, as far as the machine
  holds the matrices and the product. `StoredMatrix.product_too_large` shows a product that it does
  not hold.
-/

namespace PathSum

universe u

variable {α : Type u} {m n p : Nat}

namespace Matrix

variable (w : Weights α) (A : Matrix α m n) (B : Matrix α n p)

/-- A row of a product comes from the row of the first factor. -/
theorem row_mul (i : Fin m) : (A.mul w B).row i = vecMul w (A.row i) B := by
  apply ext_get
  intro j
  simp only [row, get_ofFn, entry_mul, get_vecMul]

/-- A column of a product comes from the column of the second factor. -/
theorem column_mul (j : Fin p) : (A.mul w B).column j = A.mulVec w (B.column j) := by
  apply ext_get
  intro i
  simp only [column, get_ofFn, entry_mul, get_mulVec]

theorem dot_row_column (i : Fin m) (j : Fin p) :
    w.dot (A.row i) (B.column j) = (A.mul w B).entry i j := by
  simp only [Weights.dot, row, column, get_ofFn, entry_mul]

end Matrix

/-! ## Stored matrices -/

namespace StoredMatrix

variable {α : Type} {machine : Machine} {m n p : Nat}

/-- **All products sum in the same order.** For any operations on weights and however the program is
built, an entry of a product of stored matrices is the sum from the left of the products along its
row and its column, although the loop adds up all entries in place. The products of the single rows
with the second matrix come to the same, the products of the first matrix with the single columns,
and the products of a row and a column. The machine has to hold the shapes of both matrices and of
their product. -/
theorem products_agree (hA : machine.Holds m n) (hB : machine.Holds n p)
    (hAB : machine.Holds m p) (w : Weights α) (A : Matrix α m n) (B : Matrix α n p) :
    ∃ P : Matrix α m p, A.stored.mul machine w B.stored = .ok P.stored ∧
      (∀ (i : Fin m) (j : Fin p), P.stored.index machine i j = .ok
        (Fin.foldl n (fun total k => w.add total (w.mul (A.entry i k) (B.entry k j))) w.zero)) ∧
      (∀ i : Fin m, A.stored.row machine i = .ok (A.row i).toList ∧
        P.stored.row machine i = .ok (P.row i).toList ∧
        vecMul machine w (A.row i).toArray B.stored = .ok (P.row i).toArray) ∧
      (∀ j : Fin p, A.stored.mulVec machine w (B.column j).toArray = .ok (P.column j).toArray) ∧
      ∀ (i : Fin m) (j : Fin p), ∃ x, P.stored.index machine i j = .ok x ∧
        w.dotOf (A.row i).toArray (B.column j).toArray = .ok x := by
  refine ⟨A.mul w B, Matrix.mul_stored hA hB hAB w A B, fun i j => ?_, fun i => ?_, fun j => ?_,
    fun i j => ?_⟩
  · rw [Matrix.index_stored hAB, A.entry_mul]
    rfl
  · -- where there is a row, the array of sums is not longer than the product.
    rw [Matrix.toList_row, Matrix.toList_row]
    refine ⟨AnyMatrix.row_stored_of_lt (A := .of A) hA i,
      AnyMatrix.row_stored_of_lt (A := .of (A.mul w B)) hAB i, ?_⟩
    rw [A.row_mul w B]
    exact Matrix.vecMul_stored hB (hAB.cols_le i.pos) w (A.row i) B
  · rw [A.column_mul w B]
    exact Matrix.mulVec_stored hA (hAB.symm.cols_le j.pos) w A (B.column j)
  · refine ⟨_, Matrix.index_stored hAB (A.mul w B) i j, ?_⟩
    rw [← A.dot_row_column w B]
    exact w.dotOf_toArray ..

/-- A row of numbers times a column of numbers, and a product over no index at all, where every
entry is the sum without terms. -/
theorem products_agree_small :
    (∃ P : Matrix UInt64 1 1, StoredMatrix.mul (.ofEntryBytes .stops 8) .counting
        ⟨1, 2, #[2, 3]⟩ ⟨2, 1, #[5, 7]⟩ = .ok P.stored ∧
      P.stored.index (.ofEntryBytes .stops 8) 0 0 = .ok 31) ∧
    ∃ P : Matrix UInt64 2 1, StoredMatrix.mul (.ofEntryBytes .stops 8) .counting
        ⟨2, 0, #[]⟩ ⟨0, 1, #[]⟩ = .ok P.stored ∧
      P.stored.index (.ofEntryBytes .stops 8) 1 0 = .ok 0 := by
  constructor
  · have hrow : (Machine.ofEntryBytes .stops 8).Holds 1 2 := by decide
    obtain ⟨P, hP, hentry, -⟩ := products_agree hrow (by decide) (by decide) .counting ⟨#v[2, 3]⟩
      (⟨#v[5, 7]⟩ : Matrix UInt64 2 1)
    refine ⟨P, hP, (hentry 0 0).trans ?_⟩
    decide
  · have hempty : (Machine.ofEntryBytes .stops 8).Holds 2 0 := by decide
    obtain ⟨P, hP, hentry, -⟩ := products_agree hempty (by decide) (by decide) .counting ⟨#v[]⟩
      (⟨#v[]⟩ : Matrix UInt64 0 1)
    refine ⟨P, hP, (hentry 1 0).trans ?_⟩
    rfl

/-- **A product of matrices may not exist where the products of its rows and columns do.** The first
row of a matrix without columns times the first column of a matrix without rows is zero, but the
product of the matrices would have `3 * 2 ^ 63` entries. -/
theorem product_too_large :
    (hollow UInt64 3 0).cols = (hollow UInt64 0 (2 ^ 63)).rows ∧
    ∀ overflow : Overflow,
      (hollow UInt64 3 0).row (.ofEntryBytes overflow 8) 0 = .ok [] ∧
      Weights.counting.dotOf #[] #[] = .ok 0 ∧
      ∀ P, (hollow UInt64 3 0).mul (.ofEntryBytes overflow 8) .counting
        (hollow UInt64 0 (2 ^ 63)) ≠ .ok P := by
  refine ⟨rfl, fun overflow => ⟨?_, ?_, fun P => mul_hollow_ne_ok⟩⟩
  · cases overflow <;> rfl
  · rfl

end StoredMatrix

end PathSum
