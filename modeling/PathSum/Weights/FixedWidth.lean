import PathSum.Weights.Basic

/-!
# Weights of 64 bits

Numbers of paths that stop growing at the largest value, and signed numbers that wrap around.

Main statements: `toNat_saturatingAdd` and `toNat_saturatingMul` say that a count is the exact
result, or the largest value if that is smaller.
-/

namespace PathSum

/-! ## Counts -/

def maxCount : UInt64 := 0xffffffffffffffff

/-- The sum, or the largest count if the sum does not fit. -/
def saturatingAdd (a b : UInt64) : UInt64 :=
  if a ≤ maxCount - b then a + b else maxCount

/-- The product, or the largest count if the product does not fit. -/
def saturatingMul (a b : UInt64) : UInt64 :=
  if a = 0 ∨ b ≤ maxCount / a then a * b else maxCount

/-- How many paths there are. Sums and products that do not fit are the largest value instead. -/
def Weights.counting : Weights UInt64 where
  zero := 0
  one := 1
  add := saturatingAdd
  mul := saturatingMul
  same := (· == ·)

theorem toNat_maxCount : maxCount.toNat = UInt64.size - 1 := rfl

theorem toNat_saturatingAdd (a b : UInt64) :
    (saturatingAdd a b).toNat = min (a.toNat + b.toNat) (UInt64.size - 1) := by
  have hb := b.toNat_lt
  have hle : b ≤ maxCount := by
    rw [UInt64.le_iff_toNat_le, toNat_maxCount]
    exact Nat.le_sub_one_of_lt hb
  -- the difference is not below zero, so the test is about the exact sum.
  have hfits : a ≤ maxCount - b ↔ a.toNat + b.toNat ≤ UInt64.size - 1 := by
    rw [UInt64.le_iff_toNat_le, UInt64.toNat_sub_of_le _ _ hle, toNat_maxCount]
    simp only [UInt64.size]
    omega
  rw [saturatingAdd]
  split
  · next h =>
    have hsum := hfits.1 h
    have hlt : a.toNat + b.toNat < 2 ^ 64 := by simp only [UInt64.size] at hsum; omega
    rw [UInt64.toNat_add, Nat.mod_eq_of_lt hlt, Nat.min_eq_left hsum]
  · next h =>
    rw [toNat_maxCount, Nat.min_eq_right (Nat.le_of_not_le fun hsum => h (hfits.2 hsum))]

theorem toNat_saturatingMul (a b : UInt64) :
    (saturatingMul a b).toNat = min (a.toNat * b.toNat) (UInt64.size - 1) := by
  have hfits : a = 0 ∨ b ≤ maxCount / a ↔ a.toNat * b.toNat ≤ UInt64.size - 1 := by
    by_cases hzero : a = 0
    · simp [hzero]
    · have hpos : 0 < a.toNat := Nat.pos_of_ne_zero fun h => hzero (UInt64.toNat_inj.1 h)
      rw [UInt64.le_iff_toNat_le, UInt64.toNat_div, toNat_maxCount, Nat.le_div_iff_mul_le hpos,
        Nat.mul_comm, or_iff_right hzero]
  rw [saturatingMul]
  split
  · next h =>
    have hproduct := hfits.1 h
    have hlt : a.toNat * b.toNat < 2 ^ 64 := by simp only [UInt64.size] at hproduct; omega
    rw [UInt64.toNat_mul, Nat.mod_eq_of_lt hlt, Nat.min_eq_left hproduct]
  · next h =>
    rw [toNat_maxCount, Nat.min_eq_right (Nat.le_of_not_le fun hprod => h (hfits.2 hprod))]

/-! ## Signed numbers -/

/-- Signed numbers, reduced modulo `2 ^ 64`. -/
def RingWeights.wrapping : RingWeights Int64 where
  zero := 0
  one := 1
  add := (· + ·)
  mul := (· * ·)
  same := (· == ·)
  neg a := -a
  sub := (· - ·)

end PathSum
