import PathSum.Proofs.Matrix.Laws
import PathSum.Proofs.Matrix.Power
import PathSum.Proofs.Matrix.StarSums

/-!
# Powers are repeated products

The loop for powers squares the matrix again and again and multiplies some of the squares. Over a
semiring this gives the same as one factor after another, because the square matrices of one size
are lawful weights again: the invariant of the loop needs no more than that their products are
associative. The weights need not commute.

* `Matrix.pow_eq_npow`: a power is the power in the semiring of square matrices.
* `Matrix.pow_add`: exponents are added by multiplying powers.
* `Matrix.pow_eq_stepPower`: one factor after another gives the power.
* `AnyMatrix.pow_exact`: the repeated product and the sum of exponents for a matrix whose shape is
  checked.
-/

namespace PathSum

universe u

variable {α : Type u} {w : Weights α} {n : Nat}

namespace Matrix

/-- The loop computes the power in the semiring of square matrices. -/
theorem pow_eq_npow (laws : w.SemiringLaws) (A : Matrix α n n) (k : Nat) :
    let _ := (laws.matrices n).semiring
    A.pow w k = A ^ k := by
  intro
  exact pow_map id rfl (fun _ _ => rfl) A k

protected theorem pow_succ (laws : w.SemiringLaws) (A : Matrix α n n) (k : Nat) :
    A.pow w (k + 1) = (A.pow w k).mul w A := by
  let _ := (laws.matrices n).semiring
  rw [pow_eq_npow laws, pow_eq_npow laws]
  exact pow_succ A k

protected theorem pow_add (laws : w.SemiringLaws) (A : Matrix α n n) (j k : Nat) :
    A.pow w (j + k) = (A.pow w j).mul w (A.pow w k) := by
  let _ := (laws.matrices n).semiring
  rw [pow_eq_npow laws, pow_eq_npow laws, pow_eq_npow laws]
  exact pow_add A j k

theorem pow_eq_stepPower (laws : w.SemiringLaws) (A : Matrix α n n) (k : Nat) :
    A.pow w k = stepPower w A k := by
  induction k with
  | zero => exact pow_zero w A
  | succ k ih =>
    rw [Matrix.pow_succ laws, ih]
    rfl

end Matrix

namespace AnyMatrix

/-- The product of the identity and `k` factors, one after another. -/
def repeatedMul (w : Weights α) (A : AnyMatrix α) : (k : Nat) → Except ShapeError (AnyMatrix α)
  | 0 => .ok (of (.identity w A.rows))
  | k + 1 => do
    let P ← A.repeatedMul w k
    P.mul w A

theorem repeatedMul_of (w : Weights α) (A : Matrix α n n) (k : Nat) :
    (of A).repeatedMul w k = .ok (of (Matrix.stepPower w A k)) := by
  induction k with
  | zero => rfl
  | succ k ih =>
    rw [repeatedMul, ih]
    exact mul_of w (Matrix.stepPower w A k) A

/-- Only a matrix that is not square has no powers, not even the one without factors. -/
theorem pow_eq_error_iff {A : AnyMatrix α} {k : Nat} {e : ShapeError} :
    A.pow w k = .error e ↔ A.rows ≠ A.cols ∧ e = .notSquare A.shape := by
  by_cases h : A.rows = A.cols
  · obtain ⟨n, _, A⟩ := A
    obtain rfl : n = _ := h
    simp [show pow w ⟨n, n, A⟩ k = _ from pow_of w A k]
  · rw [pow, square_eq_error h]
    simp [h, Except.map, eq_comm]

/-- **Powers are repeated products.** Over a semiring, commutative or not, every power of a square
matrix is the product of the identity and as many factors, multiplied one after another, and
exponents are added by multiplying powers. Whatever the weights are, a matrix that is not square is
refused for every exponent, and nothing else is. -/
theorem pow_exact (w : Weights α) (A : AnyMatrix α) :
    (w.SemiringLaws → A.rows = A.cols →
      (∀ k, ∃ P, A.pow w k = .ok P ∧ A.repeatedMul w k = .ok P) ∧
      ∀ j k, ∃ P Q R, A.pow w j = .ok P ∧ A.pow w k = .ok Q ∧
        P.mul w Q = .ok R ∧ A.pow w (j + k) = .ok R) ∧
    ∀ (k : Nat) (e : ShapeError), A.pow w k = .error e ↔
      A.rows ≠ A.cols ∧ e = .notSquare A.shape := by
  refine ⟨fun laws hsquare => ?_, fun _ _ => pow_eq_error_iff⟩
  obtain ⟨n, _, A⟩ := A
  obtain rfl : n = _ := hsquare
  refine ⟨fun k => ⟨_, pow_of w A k, ?_⟩, fun j k => ?_⟩
  · rw [Matrix.pow_eq_stepPower laws]
    exact repeatedMul_of w A k
  · refine ⟨_, _, _, pow_of w A j, pow_of w A k, mul_of w (A.pow w j) (A.pow w k), ?_⟩
    rw [← Matrix.pow_add laws]
    exact pow_of w A (j + k)

/-- A square of blocks, with one block on the diagonal and another elsewhere. The two blocks do not
commute. -/
def lattice : AnyMatrix (Matrix Bool 2 2) :=
  of (m := 2) (n := 2) (.ofFn fun r c => .ofFn fun i j => if r = c then i < j else j < i)

theorem pow_exact_lattice :
    blocks.SemiringLaws ∧ lattice.rows = lattice.cols ∧
    (∃ P, lattice.pow blocks 5 = .ok P ∧ lattice.repeatedMul blocks 5 = .ok P) ∧
    (∃ P Q R, lattice.pow blocks 3 = .ok P ∧ lattice.pow blocks 4 = .ok Q ∧
      P.mul blocks Q = .ok R ∧ lattice.pow blocks (3 + 4) = .ok R) ∧
    ladder.pow blocks 0 = .error (.notSquare ⟨1, 2⟩) := by
  have laws : blocks.SemiringLaws := Weights.boolean_laws.toSemiringLaws.matrices 2
  obtain ⟨hpow, hadd⟩ := (pow_exact blocks lattice).1 laws rfl
  refine ⟨laws, rfl, hpow 5, hadd 3 4, ?_⟩
  exact ((pow_exact blocks ladder).2 0 _).mpr ⟨by decide, rfl⟩

end AnyMatrix

end PathSum
