import PathSum.Weights.Basic

/-!
# Laws of weights

The laws that operations on weights may obey. They come in three steps: what it takes to sum over
paths one step at a time, what makes the weights a semiring, and what makes them a commutative one.
Weights that can be taken away may be a commutative ring.

No definition asks for a law; a law is a hypothesis of the statements that need it.
-/

namespace PathSum

universe u

variable {α : Type u}

namespace Weights

/-- Sums can be taken in any order, and a sum is continued by continuing each of its terms. The
product need not be associative: paths are multiplied from the left. -/
structure PathLaws (w : Weights α) : Prop where
  add_assoc : ∀ a b c, w.add (w.add a b) c = w.add a (w.add b c)
  add_comm : ∀ a b, w.add a b = w.add b a
  zero_add : ∀ a, w.add w.zero a = a
  add_mul : ∀ a b c, w.mul (w.add a b) c = w.add (w.mul a c) (w.mul b c)
  zero_mul : ∀ a, w.mul w.zero a = w.zero

structure SemiringLaws (w : Weights α) : Prop extends PathLaws w where
  mul_assoc : ∀ a b c, w.mul (w.mul a b) c = w.mul a (w.mul b c)
  one_mul : ∀ a, w.mul w.one a = a
  mul_one : ∀ a, w.mul a w.one = a
  mul_add : ∀ a b c, w.mul a (w.add b c) = w.add (w.mul a b) (w.mul a c)
  mul_zero : ∀ a, w.mul a w.zero = w.zero

structure CommSemiringLaws (w : Weights α) : Prop extends SemiringLaws w where
  mul_comm : ∀ a b, w.mul a b = w.mul b a

end Weights

/-- How differences are computed is not a law of the ring. -/
structure RingWeights.CommRingLaws (w : RingWeights α) : Prop
    extends w.toWeights.CommSemiringLaws where
  add_neg : ∀ a, w.add a (w.neg a) = w.zero

/-! ## Consequences -/

namespace Weights

theorem PathLaws.add_zero {w : Weights α} (laws : w.PathLaws) (a : α) : w.add a w.zero = a := by
  rw [laws.add_comm, laws.zero_add]

/-- A sum that starts elsewhere is the start and the sum. So it does not matter where a sum from the
left begins, and two sums can be put together. -/
theorem PathLaws.foldl_add {w : Weights α} (laws : w.PathLaws) (a : α) (items : List α) :
    items.foldl w.add a = w.add a (w.sum items) := by
  induction items generalizing a with
  | nil => exact (laws.add_zero a).symm
  | cons x items ih =>
    have hsum : w.sum (x :: items) = w.add x (w.sum items) := by
      show items.foldl w.add (w.add w.zero x) = _
      rw [ih, laws.zero_add]
    rw [List.foldl_cons, ih, hsum, laws.add_assoc]

theorem PathLaws.sum_cons {w : Weights α} (laws : w.PathLaws) (x : α) (items : List α) :
    w.sum (x :: items) = w.add x (w.sum items) := by
  rw [sum, List.foldl_cons, laws.foldl_add, laws.zero_add]

theorem PathLaws.sum_append {w : Weights α} (laws : w.PathLaws) (a b : List α) :
    w.sum (a ++ b) = w.add (w.sum a) (w.sum b) := by
  induction a with
  | nil => rw [List.nil_append, sum_nil, laws.zero_add]
  | cons x a ih => rw [List.cons_append, laws.sum_cons, ih, laws.sum_cons, laws.add_assoc]

end Weights

end PathSum
