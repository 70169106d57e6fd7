import Mathlib.Algebra.Group.Basic
import PathSum.Matrix.Power

/-!
# Powers by squaring

The loop for powers carries a product and a square from one binary digit of the exponent to the
next. Its invariant is that the product times the power of the square that is still to come stays
the same, wherever products are associative.
-/

namespace PathSum.Matrix

universe u v

variable {α : Type u} {M : Type v} {n : Nat}

/-- The last binary digit of the exponent decides on one factor, the others on the square. -/
theorem pow_eq_mul_pow_half [Monoid M] (x : M) (k : Nat) :
    x ^ k = (if k % 2 = 1 then x else 1) * (x * x) ^ (k / 2) := by
  have hdigit : x ^ (k % 2) = if k % 2 = 1 then x else 1 := by
    rcases Nat.mod_two_eq_zero_or_one k with h | h <;> simp [h]
  calc x ^ k = x ^ (k % 2 + 2 * (k / 2)) := by rw [Nat.mod_add_div]
    _ = (if k % 2 = 1 then x else 1) * (x * x) ^ (k / 2) := by
      rw [pow_add, pow_mul, pow_two, hdigit]

/-- **The loop computes a power**, along every map that takes products to products of matrices. The
map may forget something: counts are cut off, and still the power that comes out is the exact one,
cut off. -/
theorem mulPow_map [Monoid M] {w : Weights α} (f : M → Matrix α n n)
    (map_mul : ∀ x y, f (x * y) = (f x).mul w (f y)) (acc base : M) (k : Nat) :
    mulPow w (f acc) (f base) k = f (acc * base ^ k) := by
  induction k using Nat.strongRecOn generalizing acc base with
  | ind k ih =>
    rw [mulPow]
    split
    · next hzero => rw [hzero, Monoid.npow_zero, mul_one]
    · next hpos =>
      -- the step multiplies by the base or by one, and so does the map.
      have hfactor : (if k % 2 = 1 then (f acc).mul w (f base) else f acc) =
          f (acc * if k % 2 = 1 then base else 1) := by
        split
        · exact (map_mul acc base).symm
        · rw [mul_one]
      simp only [hfactor]
      rw [pow_eq_mul_pow_half base k, ← mul_assoc]
      split
      · -- it was the last digit, and the square is not needed any more.
        next hlast => rw [hlast, Monoid.npow_zero, mul_one]
      · rw [← map_mul]
        exact ih (k / 2) (Nat.div_lt_self (Nat.pos_of_ne_zero hpos) Nat.one_lt_two) _ _

/-- Powers of matrices are powers, along every map that takes products to products. -/
theorem pow_map [Monoid M] {w : Weights α} (f : M → Matrix α n n) (map_one : f 1 = identity w n)
    (map_mul : ∀ x y, f (x * y) = (f x).mul w (f y)) (x : M) (k : Nat) :
    (f x).pow w k = f (x ^ k) := by
  rw [pow, ← map_one, mulPow_map f map_mul, one_mul]

end PathSum.Matrix
