import Mathlib.Algebra.BigOperators.Fin
import Mathlib.Data.Matrix.Mul
import PathSum.Proofs.Matrix.Power
import PathSum.Weights.FixedWidth

/-!
# Saturation can wait until the end

Counts stop at the largest number of 64 bits. Cutting exact numbers off at that number goes through
sums (`saturate_add`, `saturate_sum`) and products (`saturate_mul`), and so through products of
matrices (`saturated_mul`). Hence it does not matter where in a computation the counts stop: a power
is the exact power, cut off at the end (`pow_saturated`, `pow_counting`).

The exact side is the matrix arithmetic of Mathlib.
-/

/-- Matrices of exact numbers, with the arithmetic of Mathlib. -/
abbrev Matrix.OfSize (m n : ℕ) (R : Type*) := Matrix (Fin m) (Fin n) R

namespace PathSum

variable {m n p : Nat}

/-- An exact count, or the largest count if it is beyond it. -/
def saturate (x : Nat) : UInt64 :=
  UInt64.ofNat (min x (UInt64.size - 1))

theorem toNat_saturate (x : Nat) : (saturate x).toNat = min x (UInt64.size - 1) := by
  have hlt : min x (UInt64.size - 1) < UInt64.size :=
    Nat.lt_of_le_of_lt (Nat.min_le_right ..) (by decide)
  exact UInt64.toNat_ofNat_of_lt hlt

@[simp]
theorem saturate_toNat (c : UInt64) : saturate c.toNat = c := by
  apply UInt64.toNat_inj.mp
  rw [toNat_saturate]
  exact Nat.min_eq_left (Nat.le_sub_one_of_lt c.toNat_lt)

theorem saturate_add (x y : Nat) : saturate (x + y) = saturatingAdd (saturate x) (saturate y) := by
  apply UInt64.toNat_inj.mp
  rw [toNat_saturatingAdd, toNat_saturate, toNat_saturate, toNat_saturate]
  omega

/-- Cutting a factor off at the top does not change a product that is cut off there. If the factor
was too large, so is the product, unless the other factor is zero. -/
theorem min_mul_min_right (x y top : Nat) : min (x * min y top) top = min (x * y) top := by
  rcases Nat.le_total y top with h | h
  · rw [Nat.min_eq_left h]
  · rw [Nat.min_eq_right h]
    cases x with
    | zero => simp
    | succ x =>
      -- with a factor that is not zero, both products reach the top.
      have hle : top ≤ (x + 1) * y := Nat.le_trans h (Nat.le_mul_of_pos_left y (Nat.succ_pos x))
      rw [Nat.min_eq_right (Nat.le_mul_of_pos_left top (Nat.succ_pos x)), Nat.min_eq_right hle]

theorem saturate_mul (x y : Nat) : saturate (x * y) = saturatingMul (saturate x) (saturate y) := by
  apply UInt64.toNat_inj.mp
  rw [toNat_saturatingMul, toNat_saturate, toNat_saturate, toNat_saturate, min_mul_min_right,
    Nat.mul_comm (min x _), min_mul_min_right, Nat.mul_comm y]

theorem saturate_sum (f : Fin n → Nat) :
    saturate (∑ i, f i) = Weights.counting.sumOver n fun i => saturate (f i) := by
  induction n with
  | zero => rfl
  | succ n ih =>
    rw [Fin.sum_univ_castSucc, saturate_add, ih, Weights.sumOver_succ]
    rfl

namespace Matrix

/-- The counts for exact counts. -/
def saturated (M : Matrix.OfSize m n ℕ) : Matrix UInt64 m n :=
  ofFn fun i j => saturate (M i j)

@[simp]
theorem entry_saturated (M : Matrix.OfSize m n ℕ) (i : Fin m) (j : Fin n) :
    (saturated M).entry i j = saturate (M i j) :=
  entry_ofFn ..

/-- The counts of a matrix as exact counts. -/
def exact (A : Matrix UInt64 m n) : Matrix.OfSize m n ℕ :=
  .of fun i j => (A.entry i j).toNat

@[simp]
theorem saturated_exact (A : Matrix UInt64 m n) : saturated A.exact = A := by
  apply ext_entry
  intro i j
  rw [entry_saturated, exact, Matrix.of_apply, saturate_toNat]

theorem saturated_one : saturated (1 : Matrix.OfSize n n ℕ) = identity .counting n := by
  apply ext_entry
  intro i j
  rw [entry_saturated, entry_identity, Matrix.one_apply]
  split <;> rfl

theorem saturated_mul (M : Matrix.OfSize m n ℕ) (N : Matrix.OfSize n p ℕ) :
    saturated (M * N) = (saturated M).mul .counting (saturated N) := by
  apply ext_entry
  intro i j
  simp only [entry_mul, entry_saturated, Matrix.mul_apply, saturate_sum, saturate_mul]
  rfl

theorem pow_saturated (M : Matrix.OfSize n n ℕ) (k : Nat) :
    (saturated M).pow .counting k = saturated (M ^ k) :=
  pow_map saturated saturated_one saturated_mul M k

theorem pow_counting (A : Matrix UInt64 n n) (k : Nat) :
    A.pow .counting k = saturated (A.exact ^ k) := by
  rw [← pow_saturated, saturated_exact]

end Matrix

end PathSum
