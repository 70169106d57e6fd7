import PathSum.Proofs.Floating.Ranks

/-!
# Adding numbers

Two numbers are brought to the smaller of their exponents, added exactly, and rounded once. In ranks
this is a sum of whole numbers that is rounded, so adding keeps the order of numbers as far as
rounding does.

* `roundRank_mono`: rounding ranks keeps their order.
* `roundRank_rankOf`: the rank of a number is not changed.
* `rankOf_add`: a sum of finite numbers has the rounded sum of their ranks.
* `rankOf_add_eq`, `addRank_mono`: so the rank of any sum depends on ranks only, and in their order.
-/

open Float.Model Float.Model.UnpackedFloat

namespace PathSum.Floating

/-! ## Rounded ranks -/

/-- A rank, rounded to that of a number: the digits of a mantissa are kept, and what is too large
becomes infinite. Below zero it is rounded as above zero, so that both signs round alike. -/
def roundRank (z : Int) : Int :=
  if 0 ≤ z then (min (round53 z.toNat) top : Nat) else -(min (round53 (-z).toNat) top : Nat)

/-- **Rounding keeps the order.** Within one sign it is monotone because `round53` and the bound
are, and across signs the one rank is not above zero and the other not below. -/
theorem roundRank_mono {y z : Int} (h : y ≤ z) : roundRank y ≤ roundRank z := by
  unfold roundRank
  by_cases hy : 0 ≤ y
  · have hround : round53 y.toNat ≤ round53 z.toNat := round53_mono (by omega)
    rw [if_pos hy, if_pos (by omega)]
    omega
  · by_cases hz : 0 ≤ z
    · rw [if_neg hy, if_pos hz]
      omega
    · have hround : round53 (-z).toNat ≤ round53 (-y).toNat := round53_mono (by omega)
      rw [if_neg hy, if_neg hz]
      omega

/-- What was rounded is the rank of a number, infinite ones included. -/
theorem roundRank_bounds (z : Int) : -top ≤ roundRank z ∧ roundRank z ≤ top := by
  unfold roundRank
  split <;> omega

/-- Above zero, the rank is rounded as the natural number that it is. -/
theorem roundRank_natCast (x : Nat) : roundRank x = (min (round53 x) top : Nat) := by
  rw [roundRank, if_pos (by omega), Int.toNat_natCast]

/-- Below zero, its opposite is. -/
theorem roundRank_neg {x : Nat} (h : 0 < x) : roundRank (-x) = -(min (round53 x) top : Nat) := by
  rw [roundRank, if_neg (by omega), Int.neg_neg, Int.toNat_natCast]

/-- With either sign, the rank without it is rounded. This is how the sign bit of a packed number
and the sign of its rank go together. -/
theorem roundRank_apply (s : Sign) {x : Nat} (h : 0 < x) :
    roundRank (s.apply x) = s.apply (min (round53 x) top : Nat) := by
  cases s
  · exact roundRank_neg h
  · exact roundRank_natCast x

/-- The infinite value needs no rounding: it is a power of two. -/
theorem round53_top : round53 top = top :=
  round53_of_fits (by decide) _

/-- The rank of a number is not changed by rounding. A finite number has a multiple of at most 53
digits, and the infinite values are at the top. -/
theorem roundRank_rankOf {u : UnpackedFloat} (hu : Canonical u) :
    roundRank (rankOf u) = rankOf u := by
  cases u with
  | notANumber =>
    show roundRank top = top
    rw [roundRank_natCast, round53_top, Nat.min_self]
  | infinity s =>
    show roundRank (s.apply top) = s.apply top
    rw [roundRank_apply s top_pos, round53_top, Nat.min_self]
  | zero s =>
    show roundRank (0 : Nat) = 0
    rw [roundRank_natCast]
    exact congrArg Nat.cast (Nat.zero_min top)
  | finite s m e h =>
    -- 53 digits are not rounded at all.
    have hround : round53 (multiple m e) = multiple m e := round53_of_fits hu.1.lt _
    show roundRank (s.apply (multiple m e)) = s.apply (multiple m e)
    rw [roundRank_apply s (multiple_pos h e), hround,
      Nat.min_eq_left (multiple_lt_top hu.1 hu.2).le]

/-- A number that needs no rounding is packed as it is. For finite numbers this is what packing does
to a full mantissa, below the top. -/
theorem rankOf_pack {u : UnpackedFloat} (hu : Canonical u) :
    rankOf (Float.Model.pack u).unpack = rankOf u := by
  cases u with
  | notANumber => rfl
  | infinity s => cases s <;> rfl
  | zero s => cases s <;> rfl
  | finite s m e h =>
    rw [rankOf_pack_finite hu.1, Nat.min_eq_left (multiple_lt_top hu.1 hu.2).le]
    rfl

/-! ## Sums of finite numbers -/

/-- **A value that was rounded and packed has the rounded rank.** Its mantissa has a digit that is
set, and its exponent is not below the least one, so that in units of the least exponent it is a
natural number. -/
theorem rankOf_round (s : Sign) {m : Nat} {e : Int} (hm : 0 < m) (he : -1074 ≤ e) :
    rankOf (Float.Model.pack (UnpackedFloat.round Format.binary64 s m e)).unpack =
      roundRank (s.apply (multiple m e)) := by
  obtain ⟨m', e', h, hround, full, hmultiple⟩ := exists_round s hm he
  rw [hround, rankOf_pack_finite full, hmultiple, roundRank_apply s (multiple_pos hm e)]

/-- The same for a sum of two mantissas with one exponent. The sum has a sign, or it is zero, and a
zero is packed as the positive one. -/
theorem rankOf_normalize (z : Int) {e : Int} (he : -1074 ≤ e) :
    rankOf (Float.Model.pack (UnpackedFloat.normalize Format.binary64 z e .positive)).unpack =
      roundRank (z * 2 ^ (e + 1074).toNat) := by
  unfold UnpackedFloat.normalize
  rcases lt_trichotomy z 0 with hlt | rfl | hgt
  · -- the size is rounded without its sign.
    obtain ⟨x, rfl⟩ : ∃ x : Nat, z = -x := ⟨(-z).toNat, by omega⟩
    rw [Int.compare_eq_lt.mpr hlt]
    dsimp only
    rw [rankOf_round _ (by omega) he]
    simp [Sign.apply, multiple]
  · rw [Int.zero_mul, Int.compare_eq_eq.mpr rfl]
    have hzero : Canonical (.zero .positive) := trivial
    exact (rankOf_pack hzero).trans (roundRank_rankOf hzero).symm
  · obtain ⟨x, rfl⟩ : ∃ x : Nat, z = x := ⟨z.toNat, by omega⟩
    rw [Int.compare_eq_gt.mpr hgt]
    dsimp only
    rw [rankOf_round _ (by omega) he]
    simp [Sign.apply, multiple]

/-- A sign goes to either factor. -/
theorem apply_mul (s : Sign) (x y : Int) : s.apply (x * y) = s.apply x * y := by
  cases s
  · exact (Int.neg_mul x y).symm
  · rfl

/-- A rank in units of a smaller exponent: the mantissa is shifted by the difference of the
exponents. -/
theorem apply_multiple (s : Sign) (m : Nat) {e least : Int} (hle : least ≤ e)
    (hleast : -1074 ≤ least) :
    s.apply (multiple m e) =
      s.apply (m <<< (e - least).toNat : Nat) * 2 ^ (least + 1074).toNat := by
  have hleast' : least = e - ((e - least).toNat : Int) := by omega
  have hsame : multiple m e = (m <<< (e - least).toNat) * 2 ^ (least + 1074).toNat := by
    rw [← multiple_shiftLeft m (k := (e - least).toNat) (by omega), ← hleast']
    rfl
  rw [← apply_mul, hsame]
  push_cast
  rfl

/-- **A sum of finite numbers has the rounded sum of their ranks.** The mantissas are first brought
to the smaller one of the two exponents, where they are added as integers. Zeros are treated apart,
because they come without an exponent. -/
theorem rankOf_add {u v : UnpackedFloat} (hu : Canonical u) (hv : Canonical v)
    (finite : u.isFinite = true) (finite' : v.isFinite = true) :
    rankOf (Float.Model.pack (UnpackedFloat.add Format.binary64 u v)).unpack =
      roundRank (rankOf u + rankOf v) := by
  cases u with
  | notANumber => exact nomatch finite
  | infinity s => exact nomatch finite
  | zero s =>
    -- the other number is the sum, and it has its full mantissa already.
    have hsum : rankOf (.zero s) + rankOf v = rankOf v := Int.zero_add _
    rw [hsum, roundRank_rankOf hv]
    cases v with
    | notANumber => exact nomatch finite'
    | infinity s' => exact nomatch finite'
    | zero s' => cases s <;> cases s' <;> rfl
    | finite s' m' e' h' => exact rankOf_pack hv
  | finite s m e h =>
    cases v with
    | notANumber => exact nomatch finite'
    | infinity s' => exact nomatch finite'
    | zero s' =>
      have hsum : rankOf (.finite s m e h) + rankOf (.zero s') = rankOf (.finite s m e h) :=
        Int.add_zero _
      rw [hsum, roundRank_rankOf hu]
      exact rankOf_pack hu
    | finite s' m' e' h' =>
      -- neither exponent is below the least, so their minimum is not either.
      have hleast : -1074 ≤ min e e' := le_min hu.1.least_le hv.1.least_le
      show rankOf (Float.Model.pack (UnpackedFloat.normalize Format.binary64
          (s.apply (m <<< (e - min e e').toNat : Nat) +
            s'.apply (m' <<< (e' - min e e').toNat : Nat)) (min e e') .positive)).unpack =
        roundRank (s.apply (multiple m e) + s'.apply (multiple m' e'))
      rw [rankOf_normalize _ hleast, Int.add_mul, apply_multiple s m (min_le_left e e') hleast,
        apply_multiple s' m' (min_le_right e e') hleast]

/-! ## Sums of all numbers -/

/-- The rank of a sum. The infinite value stays as it is, and so does the negative one where the two
do not meet. All other ranks are added and rounded. -/
def addRank (r t : Int) : Int :=
  if r = top ∨ t = top then top
  else if r = -top ∨ t = -top then -top
  else roundRank (r + t)

/-- A sum does not become smaller if one of the terms grows. Only here the bounds on ranks are
needed: below the negative infinite value, the order would be lost. -/
theorem addRank_mono {r r' : Int} (h : r ≤ r') (hge : -top ≤ r) (hle : r' ≤ top) (t : Int) :
    addRank r t ≤ addRank r' t := by
  have hbounds := roundRank_bounds (r + t)
  have hbounds' := roundRank_bounds (r' + t)
  have hround : roundRank (r + t) ≤ roundRank (r' + t) := roundRank_mono (by omega)
  unfold addRank
  split_ifs <;> omega

/-- Finite numbers have ranks between the infinite ones, so their sum is a rounded one. -/
theorem addRank_of_finite {u v : UnpackedFloat} (hu : Canonical u) (hv : Canonical v)
    (finite : u.isFinite = true) (finite' : v.isFinite = true) :
    addRank (rankOf u) (rankOf v) = roundRank (rankOf u + rankOf v) := by
  obtain ⟨hgt, hlt⟩ := rankOf_bounds hu finite
  obtain ⟨hgt', hlt'⟩ := rankOf_bounds hv finite'
  rw [addRank, if_neg (by omega), if_neg (by omega)]

/-- The negative infinite value takes up everything but the positive one. -/
theorem neg_top_addRank {r : Int} (h : r ≠ top) : addRank (-top) r = -top := by
  have htop : (0 : Int) < top := by exact_mod_cast top_pos
  rw [addRank, if_neg (by omega), if_pos (.inl rfl)]

/-- The order of the terms makes no difference. -/
theorem addRank_comm (r t : Int) : addRank r t = addRank t r := by
  simp only [addRank, Int.add_comm, or_comm]

/-- The positive infinite value takes up everything, the negative one included. For numbers this is
the case in which a sum is not a number, and it is left out by the lemmas on sums. -/
theorem top_addRank (t : Int) : addRank top t = top :=
  if_pos (.inl rfl)

/-- What there is beside the infinite length: something that is not a number, the negative infinite
value, and finite numbers. Sums are computed case by case along these three. -/
theorem notANumber_or_neg_or_finite {u : UnpackedFloat} (hu : u ≠ .infinity .positive) :
    u = .notANumber ∨ u = .infinity .negative ∨ u.isFinite = true := by
  cases u with
  | notANumber => exact .inl rfl
  | infinity s =>
    cases s
    · exact .inr (.inl rfl)
    · exact absurd rfl hu
  | zero s => exact .inr (.inr rfl)
  | finite s m e h => exact .inr (.inr rfl)

/-- What is not a number stays so, on the right as on the left. -/
theorem add_notANumber (u : UnpackedFloat) :
    UnpackedFloat.add Format.binary64 u .notANumber = .notANumber := by
  cases u <;> rfl

/-- The negative infinite value stays in a sum with finite numbers and with itself. Only the
positive one takes it away, and what is not a number. -/
theorem add_negative {u : UnpackedFloat} (hu : u.isFinite = true ∨ u = .infinity .negative) :
    UnpackedFloat.add Format.binary64 (.infinity .negative) u = .infinity .negative ∧
      UnpackedFloat.add Format.binary64 u (.infinity .negative) = .infinity .negative := by
  rcases hu with finite | rfl
  · cases u with
    | notANumber => exact nomatch finite
    | infinity s => exact nomatch finite
    | zero s => exact ⟨rfl, rfl⟩
    | finite s m e h => exact ⟨rfl, rfl⟩
  · exact ⟨rfl, rfl⟩

/-- The rank of a sum that the infinite length is not part of. What is not a number has the rank of
the infinite length, and so has a sum with it. -/
theorem rankOf_add_eq {u v : UnpackedFloat} (hu : Canonical u) (hv : Canonical v)
    (hu' : u ≠ .infinity .positive) (hv' : v ≠ .infinity .positive) :
    rankOf (Float.Model.pack (UnpackedFloat.add Format.binary64 u v)).unpack =
      addRank (rankOf u) (rankOf v) := by
  have hnan : rankOf (Float.Model.pack .notANumber).unpack = top := rfl
  have hneg : rankOf (Float.Model.pack (.infinity .negative)).unpack = -top := rfl
  rcases notANumber_or_neg_or_finite hu' with rfl | rfl | finite
  · have hadd : UnpackedFloat.add Format.binary64 .notANumber v = .notANumber := rfl
    rw [hadd, hnan]
    exact (top_addRank (rankOf v)).symm
  · rcases notANumber_or_neg_or_finite hv' with rfl | rfl | finite'
    · rw [add_notANumber, hnan, addRank_comm]
      exact (top_addRank _).symm
    · -- two lengths of negative infinity: the sum is one again.
      have htop : (0 : Int) < top := by exact_mod_cast top_pos
      rw [(add_negative (.inr rfl)).1, hneg]
      exact (neg_top_addRank (by show -(top : Int) ≠ top; omega)).symm
    · have hlt := (rankOf_bounds hv finite').2
      rw [(add_negative (.inl finite')).1, hneg]
      exact (neg_top_addRank hlt.ne).symm
  · rcases notANumber_or_neg_or_finite hv' with rfl | rfl | finite'
    · rw [add_notANumber, hnan, addRank_comm]
      exact (top_addRank _).symm
    · have hlt := (rankOf_bounds hu finite).2
      rw [(add_negative (.inl finite)).2, hneg, addRank_comm]
      exact (neg_top_addRank hlt.ne).symm
    · rw [rankOf_add hu hv finite finite', addRank_of_finite hu hv finite finite']

end PathSum.Floating
