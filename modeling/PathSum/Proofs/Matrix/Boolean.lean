import PathSum.Matrix.Arithmetic
import PathSum.Weights.Basic
import PathSum.Weights.Laws

/-!
# Boolean sums and products

With Boolean weights a sum says that one of its terms holds, so an entry of a product says that
some index leads through both factors. The lemmas here turn every product of Boolean vectors and
matrices into such a statement.
-/

namespace PathSum

variable {m n p : Nat}

theorem Weights.boolean_laws : Weights.boolean.CommSemiringLaws where
  add_assoc := by decide
  add_comm := by decide
  zero_add := by decide
  add_mul := by decide
  zero_mul := by decide
  mul_assoc := by decide
  one_mul := by decide
  mul_one := by decide
  mul_add := by decide
  mul_zero := by decide
  mul_comm := by decide

/-- A Boolean sum is true if and only if one of its terms is. Sums over paths, and the products of
matrices and vectors, turn into the existence of an index by this. -/
theorem sumOver_boolean_iff {f : Fin n → Bool} :
    Weights.boolean.sumOver n f = true ↔ ∃ i, f i = true := by
  induction n with
  | zero =>
    rw [Weights.sumOver_zero]
    exact ⟨fun h => absurd h Bool.false_ne_true, fun ⟨i, _⟩ => i.elim0⟩
  | succ n ih =>
    have hadd : Weights.boolean.sumOver (n + 1) f =
        (Weights.boolean.sumOver n (fun i => f i.castSucc) || f (Fin.last n)) :=
      Weights.sumOver_succ ..
    rw [hadd, Bool.or_eq_true, ih]
    constructor
    · rintro (⟨i, hi⟩ | hlast)
      · exact ⟨i.castSucc, hi⟩
      · exact ⟨Fin.last n, hlast⟩
    · rintro ⟨i, hi⟩
      -- the index is the last one or comes before it.
      cases i using Fin.lastCases with
      | last => exact .inr hi
      | cast i => exact .inl ⟨i, hi⟩

theorem boolean_add_iff {a b : Bool} : Weights.boolean.add a b = true ↔ a = true ∨ b = true := by
  show (a || b) = true ↔ _
  rw [Bool.or_eq_true]

theorem boolean_mul_iff {a b : Bool} : Weights.boolean.mul a b = true ↔ a = true ∧ b = true := by
  show (a && b) = true ↔ _
  rw [Bool.and_eq_true]

theorem dot_boolean_iff {u v : Vector Bool n} :
    Weights.boolean.dot u v = true ↔ ∃ i, u.get i = true ∧ v.get i = true := by
  rw [Weights.dot, sumOver_boolean_iff]
  simp only [boolean_mul_iff]

namespace Matrix

theorem entry_mul_boolean_iff {A : Matrix Bool m n} {B : Matrix Bool n p} {i : Fin m}
    {j : Fin p} :
    (A.mul .boolean B).entry i j = true ↔ ∃ k, A.entry i k = true ∧ B.entry k j = true := by
  rw [entry_mul, sumOver_boolean_iff]
  simp only [boolean_mul_iff]

theorem get_vecMul_boolean_iff {v : Vector Bool m} {A : Matrix Bool m n} {j : Fin n} :
    (vecMul .boolean v A).get j = true ↔ ∃ i, v.get i = true ∧ A.entry i j = true := by
  rw [get_vecMul, sumOver_boolean_iff]
  simp only [boolean_mul_iff]

theorem get_mulVec_boolean_iff {A : Matrix Bool m n} {v : Vector Bool n} {i : Fin m} :
    (A.mulVec .boolean v).get i = true ↔ ∃ j, A.entry i j = true ∧ v.get j = true := by
  rw [get_mulVec, sumOver_boolean_iff]
  simp only [boolean_mul_iff]

end Matrix

end PathSum
