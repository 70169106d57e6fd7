import Mathlib.Algebra.Order.Ring.Nat
import Mathlib.Tactic.Ring

/-!
# Rounding to the digits of a mantissa

A mantissa has 53 binary digits. A whole number with more digits loses the last ones, and what is
left is rounded to the nearest, to the even one of two that are equally near.

* `halfEven_mono`, `halfEven_mul`: dividing by a power of two and rounding keeps the order, and only
  the quotient matters.
* `round53_mono`: so rounding keeps the order, also between numbers that lose different digits.
* `round53_of_fits`: what fits into a mantissa is not changed.
* `roundedMantissa_shiftRight`: shifting digit by digit, with a round bit and a sticky bit, is this
  rounding.
* `exists_round`: so it is what happens to the mantissa of a number, in units of the least number.
-/

open Float.Model Float.Model.UnpackedFloat

namespace PathSum.Floating

variable {x y k : Nat}

/-! ## Dividing by a power of two -/

/-- `x / 2 ^ k`, rounded to the nearest whole number, and to the even one of two. This is what the
round bit and the sticky bit of a mantissa come to. -/
def halfEven (x k : Nat) : Nat :=
  if 2 * (x % 2 ^ k) < 2 ^ k then x / 2 ^ k
  else if 2 ^ k < 2 * (x % 2 ^ k) then x / 2 ^ k + 1
  else x / 2 ^ k + x / 2 ^ k % 2

@[simp]
theorem halfEven_zero (x : Nat) : halfEven x 0 = x := by
  simp [halfEven, Nat.mod_one]

/-- Rounding never goes below the quotient, -/
theorem div_le_halfEven (x k : Nat) : x / 2 ^ k ≤ halfEven x k := by
  unfold halfEven
  split
  · exact Nat.le_refl _
  · split
    · exact Nat.le_succ _
    · exact Nat.le_add_right ..

/-- and never more than one above it. -/
theorem halfEven_le (x k : Nat) : halfEven x k ≤ x / 2 ^ k + 1 := by
  unfold halfEven
  have hparity : x / 2 ^ k % 2 < 2 := Nat.mod_lt _ (by decide)
  split_ifs <;> omega

/-- Rounding at one place keeps the order. Where the quotients differ, it follows from the bounds,
and where they are equal, from the remainders. -/
theorem halfEven_mono (h : x ≤ y) (k : Nat) : halfEven x k ≤ halfEven y k := by
  rcases Nat.lt_or_eq_of_le (Nat.div_le_div_right h : x / 2 ^ k ≤ y / 2 ^ k) with hlt | heq
  · calc halfEven x k ≤ x / 2 ^ k + 1 := halfEven_le x k
      _ ≤ y / 2 ^ k := hlt
      _ ≤ halfEven y k := div_le_halfEven y k
  · -- with equal quotients the remainders are in order.
    have hx := Nat.div_add_mod x (2 ^ k)
    have hy := Nat.div_add_mod y (2 ^ k)
    rw [← heq] at hy
    have hmod : x % 2 ^ k ≤ y % 2 ^ k := by omega
    have hparity : x / 2 ^ k % 2 < 2 := Nat.mod_lt _ (by decide)
    unfold halfEven
    rw [← heq]
    split_ifs <;> omega

/-- Digits that both lose do not count. -/
theorem halfEven_mul (x k c : Nat) : halfEven (x * 2 ^ c) (k + c) = halfEven x k := by
  have hpos : 0 < 2 ^ c := Nat.two_pow_pos c
  have hleft : 2 * (x % 2 ^ k * 2 ^ c) = 2 * (x % 2 ^ k) * 2 ^ c := (Nat.mul_assoc ..).symm
  unfold halfEven
  rw [Nat.pow_add, Nat.mul_mod_mul_right, Nat.mul_div_mul_right _ _ hpos, hleft]
  simp only [Nat.mul_lt_mul_right hpos]

/-- A multiple loses nothing. -/
theorem halfEven_mul_self (x k : Nat) : halfEven (x * 2 ^ k) k = x := by
  have h := halfEven_mul x 0 k
  rwa [Nat.zero_add, halfEven_zero] at h

/-! ## Rounding to 53 digits -/

/-- How many digits of `x` are too many for a mantissa. -/
def excess (x : Nat) : Nat :=
  x.log2 - 52

/-- `x`, rounded to as many digits as a mantissa has. -/
def round53 (x : Nat) : Nat :=
  halfEven x (excess x) * 2 ^ excess x

/-- A larger number has as many digits or more. -/
theorem log2_mono (h : x ≤ y) : x.log2 ≤ y.log2 := by
  rcases Nat.eq_zero_or_pos x with rfl | hx
  · exact Nat.zero_le _
  · have hself : 2 ^ x.log2 ≤ y := (Nat.log2_self_le (by omega)).trans h
    exact (Nat.le_log2 (by omega)).mpr hself

/-- The mantissa has no more than 53 digits, or is the next power of two. -/
theorem halfEven_excess_le (x : Nat) : halfEven x (excess x) ≤ 2 ^ 53 := by
  have hlog : x.log2 + 1 ≤ 53 + excess x := by unfold excess; omega
  have hx : x < 2 ^ 53 * 2 ^ excess x := by
    rw [← Nat.pow_add]
    exact Nat.lt_of_lt_of_le Nat.lt_log2_self (Nat.pow_le_pow_right (by decide) hlog)
  have hdiv : x / 2 ^ excess x < 2 ^ 53 := Nat.div_lt_of_lt_mul (by rwa [Nat.mul_comm])
  exact (halfEven_le x (excess x)).trans hdiv

/-- A mantissa that lost digits has all of its 53. -/
theorem le_halfEven_excess (h : 52 ≤ x.log2) : 2 ^ 52 ≤ halfEven x (excess x) := by
  have hlog : 52 + excess x = x.log2 := by unfold excess; omega
  have hne : x ≠ 0 := by rintro rfl; exact absurd h (by decide)
  have hx : 2 ^ 52 * 2 ^ excess x ≤ x := by
    rw [← Nat.pow_add, hlog]
    exact Nat.log2_self_le hne
  exact ((Nat.le_div_iff_mul_le (Nat.two_pow_pos _)).mpr hx).trans (div_le_halfEven x _)

/-- What was rounded is a full mantissa, or it had nothing to lose. -/
theorem halfEven_excess_full (x : Nat) : 2 ^ 52 ≤ halfEven x (excess x) ∨ excess x = 0 := by
  by_cases hlog : 52 ≤ x.log2
  · exact .inl (le_halfEven_excess hlog)
  · exact .inr (Nat.sub_eq_zero_of_le (by omega))

/-- Nothing that has a digit is rounded to zero. -/
theorem halfEven_excess_pos (h : 0 < x) : 0 < halfEven x (excess x) := by
  rcases halfEven_excess_full x with hfull | hzero
  · exact Nat.lt_of_lt_of_le (by decide) hfull
  · rwa [hzero, halfEven_zero]

/-- **Rounding keeps the order.** A number with more digits stays above the power of two that a
number with fewer digits cannot pass. -/
theorem round53_mono (h : x ≤ y) : round53 x ≤ round53 y := by
  have hexcess : excess x ≤ excess y := Nat.sub_le_sub_right (log2_mono h) 52
  unfold round53
  rcases Nat.lt_or_eq_of_le hexcess with hlt | heq
  · have hy : 52 ≤ y.log2 := by unfold excess at hlt; omega
    calc halfEven x (excess x) * 2 ^ excess x
        ≤ 2 ^ 53 * 2 ^ excess x := Nat.mul_le_mul_right _ (halfEven_excess_le x)
      _ = 2 ^ 52 * 2 ^ (excess x + 1) := by ring
      _ ≤ 2 ^ 52 * 2 ^ excess y :=
          Nat.mul_le_mul_left _ (Nat.pow_le_pow_right (by decide) hlt)
      _ ≤ halfEven y (excess y) * 2 ^ excess y := Nat.mul_le_mul_right _ (le_halfEven_excess hy)
  · rw [← heq]
    exact Nat.mul_le_mul_right _ (halfEven_mono h _)

/-- Zeros at the end are the only digits that are too many, if there are at most 53 digits before
them. -/
theorem excess_le_of_fits (h : x < 2 ^ 53) (k : Nat) : excess (x * 2 ^ k) ≤ k := by
  rcases Nat.eq_zero_or_pos x with rfl | hx
  · simp [excess]
  · have hlt : x * 2 ^ k < 2 ^ (53 + k) := by
      rw [Nat.pow_add]
      exact Nat.mul_lt_mul_of_pos_right h (Nat.two_pow_pos k)
    have hne : x * 2 ^ k ≠ 0 := (Nat.mul_pos hx (Nat.two_pow_pos k)).ne'
    have hlog := (Nat.log2_lt hne).mpr hlt
    unfold excess
    omega

/-- What fits into a mantissa is not changed. -/
theorem round53_of_fits (h : x < 2 ^ 53) (k : Nat) : round53 (x * 2 ^ k) = x * 2 ^ k := by
  have hle := excess_le_of_fits h k
  have hsplit : x * 2 ^ k = x * 2 ^ (k - excess (x * 2 ^ k)) * 2 ^ excess (x * 2 ^ k) := by
    rw [Nat.mul_assoc, ← Nat.pow_add, Nat.sub_add_cancel hle]
  unfold round53
  generalize excess (x * 2 ^ k) = lost at hsplit ⊢
  rw [hsplit, halfEven_mul_self]

/-! ## Digit by digit -/

/-- The quotient `q` and the remainder `r` of a division by `p`: the round bit says whether the
remainder is at least half of `p`, the sticky bit whether it is neither nothing nor that half. -/
def withBits (q r p : Nat) : ExtendedMantissa :=
  ⟨q, p ≤ 2 * r, 2 * r ≠ 0 ∧ 2 * r ≠ p⟩

/-- Below the half, the quotient stays. Above it, the next one is taken, and at the half the even
one of the two. -/
theorem roundedMantissa_withBits (q : Nat) {r p : Nat} (hpos : 0 < p) :
    (withBits q r p).roundedMantissa =
      if 2 * r < p then q else if p < 2 * r then q + 1 else q + q % 2 := by
  unfold withBits ExtendedMantissa.roundedMantissa
  rcases Nat.lt_trichotomy (2 * r) p with hless | heq | hmore
  · rw [if_pos hless, decide_eq_false (Nat.not_le.mpr hless)]
    -- a remainder below the half is dropped, whatever the sticky bit.
    cases decide (2 * r ≠ 0 ∧ 2 * r ≠ p) <;> rfl
  · have hround : decide (p ≤ 2 * r) = true := decide_eq_true (by omega)
    have hsticky : decide (2 * r ≠ 0 ∧ 2 * r ≠ p) = false := decide_eq_false (by omega)
    rw [if_neg (by omega), if_neg (by omega), hround, hsticky]
    rfl
  · have hround : decide (p ≤ 2 * r) = true := decide_eq_true (by omega)
    have hsticky : decide (2 * r ≠ 0 ∧ 2 * r ≠ p) = true := decide_eq_true (by omega)
    rw [if_neg (by omega), if_pos hmore, hround, hsticky]
    rfl

/-- The last digit of the quotient becomes the first of the remainder. The digits that were lost
before are kept as one bit that says whether any of them was set. -/
theorem shiftRightOne_withBits (q : Nat) {r p : Nat} (hlt : r < p) :
    (withBits q r p).shiftRightOne = withBits (q / 2) (r + p * (q % 2)) (p * 2) := by
  have hround : (q % 2 != 0) = decide (p * 2 ≤ 2 * (r + p * (q % 2))) := by
    rw [Bool.eq_iff_iff]
    rcases Nat.mod_two_eq_zero_or_one q with hbit | hbit <;> simp [hbit] <;> omega
  have hsticky : (decide (p ≤ 2 * r) || decide (2 * r ≠ 0 ∧ 2 * r ≠ p)) =
      decide (2 * (r + p * (q % 2)) ≠ 0 ∧ 2 * (r + p * (q % 2)) ≠ p * 2) := by
    rw [Bool.eq_iff_iff]
    rcases Nat.mod_two_eq_zero_or_one q with hbit | hbit <;> simp [hbit] <;> omega
  unfold withBits ExtendedMantissa.shiftRightOne
  rw [hround, hsticky]

/-- A mantissa is shifted by dividing it: what it loses is the remainder. The induction is on the
number of digits, one shift after the other. -/
theorem shiftRight_eq (m k : Nat) :
    ExtendedMantissa.ofMantissaAndAccuracy m .exact >>> k =
      withBits (m / 2 ^ k) (m % 2 ^ k) (2 ^ k) := by
  induction k with
  | zero =>
    show ExtendedMantissa.ofMantissaAndAccuracy m .exact = _
    simp [ExtendedMantissa.ofMantissaAndAccuracy, withBits, Nat.mod_one]
  | succ k ih =>
    show (ExtendedMantissa.ofMantissaAndAccuracy m .exact >>> k).shiftRightOne = _
    have hmod : m % 2 ^ (k + 1) = m % 2 ^ k + 2 ^ k * (m / 2 ^ k % 2) := Nat.mod_mul
    rw [ih, shiftRightOne_withBits _ (Nat.mod_lt m (Nat.two_pow_pos k)), hmod, Nat.pow_succ,
      Nat.div_div_eq_div_mul]

/-- **Shifting a mantissa digit by digit rounds it once.** -/
theorem roundedMantissa_shiftRight (m k : Nat) :
    (ExtendedMantissa.ofMantissaAndAccuracy m .exact >>> k).roundedMantissa = halfEven m k := by
  rw [shiftRight_eq, roundedMantissa_withBits _ (Nat.two_pow_pos k), halfEven]

/-! ## Numbers with an exponent -/

/-- The mantissa has 53 digits, or fewer if the exponent is the least one. -/
structure FullMantissa (m : Nat) (e : Int) : Prop where
  lt : m < 2 ^ 53
  least_le : -1074 ≤ e
  full : 2 ^ 52 ≤ m ∨ e = -1074

/-- How many times `m * 2 ^ e` is as large as the least positive number. -/
def multiple (m : Nat) (e : Int) : Nat :=
  m * 2 ^ (e + 1074).toNat

/-- A number that is not zero is a positive multiple of the least one. -/
theorem multiple_pos {m : Nat} (h : 0 < m) (e : Int) : 0 < multiple m e :=
  Nat.mul_pos h (Nat.two_pow_pos _)

/-- Each zero at the end is a digit. -/
theorem log2_mul_two_pow {m : Nat} (h : 0 < m) (k : Nat) : (m * 2 ^ k).log2 = m.log2 + k := by
  have hself := Nat.log2_self_le h.ne'
  have hlt : m < 2 ^ (m.log2 + 1) := Nat.lt_log2_self
  rw [Nat.log2_eq_iff (Nat.mul_pos h (Nat.two_pow_pos k)).ne', Nat.add_right_comm, Nat.pow_add,
    Nat.pow_add]
  exact ⟨Nat.mul_le_mul_right _ hself, Nat.mul_lt_mul_of_pos_right hlt (Nat.two_pow_pos k)⟩

/-- The exponent to which a number is shifted makes up for the digits that are too many. -/
theorem targetExponent_eq {m : Nat} {e : Int} (h : 0 < m) (he : -1074 ≤ e) :
    Format.binary64.targetExponent (totalExponent m e) = excess (multiple m e) - 1074 := by
  unfold excess multiple
  rw [log2_mul_two_pow h]
  show max ((m.log2 : Int) + 1 + e - 53) (-1074) = _
  omega

/-- The mantissa is shifted by as much as the exponent has to grow. -/
theorem shiftToTargetExponent_eq {m : Nat} {e : Int} {k : Nat}
    (hk : (Format.binary64.targetExponent (totalExponent m e) - e).toNat = k) :
    shiftToTargetExponent Format.binary64 m e .exact =
      (ExtendedMantissa.ofMantissaAndAccuracy m .exact >>> k, e + k) := by
  subst hk
  rfl

/-- A mantissa that fits is not shifted. Its exponent is the target already, or above it. -/
theorem shiftToTargetExponent_of_fits {m : Nat} {e : Int} (hm : m < 2 ^ 53) (he : -1074 ≤ e) :
    shiftToTargetExponent Format.binary64 m e .exact =
      (ExtendedMantissa.ofMantissaAndAccuracy m .exact, e) := by
  have hlog : m.log2 ≤ 52 := by
    rcases Nat.eq_zero_or_pos m with rfl | hpos
    · decide
    · exact Nat.le_of_lt_succ ((Nat.log2_lt hpos.ne').mpr hm)
  have htarget : Format.binary64.targetExponent (totalExponent m e) ≤ e := by
    show max ((m.log2 : Int) + 1 + e - 53) (-1074) ≤ e
    omega
  rw [shiftToTargetExponent_eq (k := 0) (by omega)]
  simp only [Int.natCast_zero, Int.add_zero]
  rfl

/-- A mantissa that was rounded up to the next power of two loses a zero, and its exponent goes up
by one. -/
theorem shiftToTargetExponent_carry {e : Int} (he : -1074 ≤ e) :
    shiftToTargetExponent Format.binary64 (2 ^ 53) e .exact =
      (ExtendedMantissa.ofMantissaAndAccuracy (2 ^ 52) .exact, e + 1) := by
  have htarget : Format.binary64.targetExponent (totalExponent (2 ^ 53) e) = e + 1 := by
    show max (((2 ^ 53 : Nat).log2 : Int) + 1 + e - 53) (-1074) = e + 1
    rw [Nat.log2_two_pow]
    omega
  rw [shiftToTargetExponent_eq (k := 1) (by omega)]
  rfl

/-- The second shift, after rounding, only has something to do if the mantissa was rounded up to the
next power of two. Both shifts together leave the number that rounding once gives. -/
theorem roundWithAccuracy_eq (s : Sign) {m r : Nat} {e t : Int} {em : ExtendedMantissa}
    (hfirst : shiftToTargetExponent Format.binary64 m e .exact = (em, t))
    (hr : em.roundedMantissa = r) (hpos : 0 < r) (hle : r ≤ 2 ^ 53) (ht : -1074 ≤ t) :
    roundWithAccuracy Format.binary64 s m e .exact =
      if r < 2 ^ 53 then .finite s r t hpos else .finite s (2 ^ 52) (t + 1) (by decide) := by
  unfold roundWithAccuracy
  rw [hfirst]
  dsimp only
  rw [hr]
  by_cases hlt : r < 2 ^ 53
  · rw [shiftToTargetExponent_of_fits hlt ht, if_pos hlt]
    exact dif_neg hpos.ne'
  · obtain rfl : r = 2 ^ 53 := by omega
    rw [shiftToTargetExponent_carry ht, if_neg hlt]
    rfl

/-- The result of rounding has a full mantissa again, and it is the rounded multiple. There are two
cases, since a mantissa of ones may be rounded up to a power of two and then has one digit too many.
-/
theorem exists_roundWithAccuracy (s : Sign) {m : Nat} {e : Int} (hm : 0 < m) (hleast : -1074 ≤ e)
    (he : e ≤ excess (multiple m e) - 1074) : ∃ m' e' h,
      roundWithAccuracy Format.binary64 s m e .exact = .finite s m' e' h ∧ FullMantissa m' e' ∧
        multiple m' e' = round53 (multiple m e) := by
  obtain ⟨k, hk⟩ : ∃ k : Nat, e + k = excess (multiple m e) - 1074 :=
    ⟨(excess (multiple m e) - 1074 - e).toNat, by omega⟩
  have hfirst := shiftToTargetExponent_eq (k := k) (by rw [targetExponent_eq hm hleast]; omega)
  have hround : (ExtendedMantissa.ofMantissaAndAccuracy m .exact >>> k).roundedMantissa =
      halfEven (multiple m e) (excess (multiple m e)) := by
    have hsum : excess (multiple m e) = k + (e + 1074).toNat := by omega
    rw [roundedMantissa_shiftRight, hsum, multiple, halfEven_mul]
  have hx := multiple_pos hm e
  -- from here on only the multiple counts, not how it came about.
  rw [hk] at hfirst
  generalize multiple m e = x at *
  have hpos := halfEven_excess_pos hx
  have hle := halfEven_excess_le x
  rw [roundWithAccuracy_eq s hfirst hround hpos hle (by omega)]
  by_cases hlt : halfEven x (excess x) < 2 ^ 53
  · have hexponent : ((excess x : Int) - 1074 + 1074).toNat = excess x := by omega
    refine ⟨_, _, hpos, if_pos hlt, ⟨hlt, by omega, ?_⟩, ?_⟩
    · exact (halfEven_excess_full x).imp_right fun hzero => by omega
    · rw [multiple, hexponent, round53]
  · have hexponent : ((excess x : Int) - 1074 + 1 + 1074).toNat = excess x + 1 := by omega
    -- the digits were all ones: the mantissa is a power of two now, and it is shifted once more.
    have hcarry : halfEven x (excess x) = 2 ^ 53 := by omega
    refine ⟨_, _, _, if_neg hlt, ⟨by decide, by omega, .inl (Nat.le_refl _)⟩, ?_⟩
    rw [multiple, hexponent, round53, hcarry]
    ring

/-- Digits can be moved from the exponent to the mantissa. -/
theorem multiple_shiftLeft (m : Nat) {e : Int} {k : Nat} (h : -1074 + k ≤ e) :
    multiple (m <<< k) (e - k) = multiple m e := by
  have hexponent : (e + 1074).toNat = k + (e - k + 1074).toNat := by omega
  rw [multiple, multiple, Nat.shiftLeft_eq, hexponent, Nat.pow_add, Nat.mul_assoc]

/-- **Rounding a number rounds its multiple.** The exponent is first brought low enough for the
digits to be counted from it, which does not change the multiple. -/
theorem exists_round (s : Sign) {m : Nat} {e : Int} (hm : 0 < m) (hleast : -1074 ≤ e) :
    ∃ m' e' h, UnpackedFloat.round Format.binary64 s m e = .finite s m' e' h ∧
      FullMantissa m' e' ∧ multiple m' e' = round53 (multiple m e) := by
  obtain ⟨k, hk⟩ : ∃ k : Nat, (e - (excess (multiple m e) - 1074)).toNat = k := ⟨_, rfl⟩
  have hsame : multiple (m <<< k) (e - k) = multiple m e := multiple_shiftLeft m (by omega)
  have hround : UnpackedFloat.round Format.binary64 s m e =
      roundWithAccuracy Format.binary64 s (m <<< k) (e - k) .exact := by
    rw [UnpackedFloat.round, targetExponent_eq hm hleast, decreaseExponent, hk]
  have hpos : 0 < m <<< k := by
    rw [Nat.shiftLeft_eq]
    exact Nat.mul_pos hm (Nat.two_pow_pos k)
  rw [hround, ← hsame]
  exact exists_roundWithAccuracy s hpos (by omega) (by rw [hsame]; omega)

end PathSum.Floating
