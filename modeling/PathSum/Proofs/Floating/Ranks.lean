import PathSum.Proofs.Floating.Packing

/-!
# Ranks of numbers

Every finite number is a whole multiple of the least positive one. This multiple, with the sign of
the number, is its rank: its place in the order of all numbers. The infinite values have the ranks
that come next above and below, and what is not a number is ranked with the infinite value above.

* `rankOf_pack_finite`: packing cuts ranks off at the top.
* `compare_multiple`: exponents and then mantissas are in the order of the multiples.
* `compare_eq`: comparing numbers is comparing their ranks.
* `lt_iff_rank_lt`, `le_iff_rank_le`: so numbers are in the order of their ranks.
-/

open Float.Model Float.Model.UnpackedFloat

namespace PathSum.Floating

/-! ## Ranks -/

/-- With a larger exponent goes a full mantissa, and so a larger multiple. A mantissa with fewer
digits only goes with the least exponent. -/
theorem multiple_lt_of_exponent_lt {m m' : Nat} {e e' : Int} (full : FullMantissa m e)
    (full' : FullMantissa m' e') (h : e < e') : multiple m e < multiple m' e' := by
  have hleast := full.least_le
  have hm' : 2 ^ 52 ≤ m' := full'.full.resolve_right (by omega)
  have hexponent : (e + 1074).toNat + 1 ≤ (e' + 1074).toNat := by omega
  calc m * 2 ^ (e + 1074).toNat < 2 ^ 53 * 2 ^ (e + 1074).toNat :=
        Nat.mul_lt_mul_of_pos_right full.lt (Nat.two_pow_pos _)
    _ = 2 ^ 52 * 2 ^ ((e + 1074).toNat + 1) := by ring
    _ ≤ 2 ^ 52 * 2 ^ (e' + 1074).toNat :=
        Nat.mul_le_mul_left _ (Nat.pow_le_pow_right (by decide) hexponent)
    _ ≤ m' * 2 ^ (e' + 1074).toNat := Nat.mul_le_mul_right _ hm'

/-- The rank of the infinite value: the first number that would be too large. -/
def top : Nat :=
  multiple (2 ^ 52) 972

theorem top_pos : 0 < top :=
  multiple_pos (by decide) 972

/-- With an exponent that is not too large, a full mantissa stays below the infinite value. -/
theorem multiple_lt_top {m : Nat} {e : Int} (full : FullMantissa m e) (he : e ≤ 971) :
    multiple m e < top :=
  multiple_lt_of_exponent_lt full ⟨by decide, by decide, .inl (Nat.le_refl _)⟩ (by omega)

/-- With a larger exponent it does not. -/
theorem top_le_multiple {m : Nat} {e : Int} (full : FullMantissa m e) (he : ¬e ≤ 971) :
    top ≤ multiple m e := by
  have hm : 2 ^ 52 ≤ m := full.full.resolve_right (by omega)
  have hexponent : ((972 : Int) + 1074).toNat ≤ (e + 1074).toNat := by omega
  exact Nat.mul_le_mul hm (Nat.pow_le_pow_right (by decide) hexponent)

/-- The place of a number in the order of all numbers. -/
def rankOf : UnpackedFloat → Int
  | .notANumber => top
  | .infinity s => s.apply top
  | .zero _ => 0
  | .finite s m e _ => s.apply (multiple m e)

/-- Finite numbers are ranked between the infinite values. The largest of them is a number of 53
ones, and the next multiple is the infinite rank. -/
theorem rankOf_bounds {u : UnpackedFloat} (hu : Canonical u) (finite : u.isFinite = true) :
    -top < rankOf u ∧ rankOf u < top := by
  have htop : (0 : Int) < top := by exact_mod_cast top_pos
  cases u with
  | notANumber => exact nomatch finite
  | infinity s => exact nomatch finite
  | zero s => exact ⟨by show -(top : Int) < 0; omega, htop⟩
  | finite s m e h =>
    have hlt : (multiple m e : Int) < top := by exact_mod_cast multiple_lt_top hu.1 hu.2
    cases s
    · constructor
      · show -(top : Int) < -multiple m e
        omega
      · show -(multiple m e : Int) < top
        omega
    · exact ⟨by show -(top : Int) < multiple m e; omega, hlt⟩

/-- Packing cuts ranks off at the top. A number with a full mantissa is kept below it, and at the
top or above it becomes infinite. -/
theorem rankOf_pack_finite {s : Sign} {m : Nat} {e : Int} {h : 0 < m} (full : FullMantissa m e) :
    rankOf (Float.Model.pack (.finite s m e h)).unpack =
      s.apply (min (multiple m e) top : Nat) := by
  rw [unpack_pack_finite full]
  by_cases he : e ≤ 971
  · rw [if_pos he, Nat.min_eq_left (multiple_lt_top full he).le]
    rfl
  · rw [if_neg he, Nat.min_eq_right (top_le_multiple full he)]
    rfl

/-! ## The order of ranks -/

/-- Exponents and then mantissas are in the order of the multiples. A larger exponent wins before
the mantissas are looked at, since they are full. -/
theorem compare_multiple {m m' : Nat} {e e' : Int} (full : FullMantissa m e)
    (full' : FullMantissa m' e') :
    (compare e e').then (compare m m') = compare (multiple m e : Int) (multiple m' e') := by
  rcases lt_trichotomy e e' with hlt | rfl | hgt
  · have hmultiple := multiple_lt_of_exponent_lt full full' hlt
    rw [Int.compare_eq_lt.mpr hlt, Int.compare_eq_lt.mpr (by exact_mod_cast hmultiple)]
    rfl
  · -- with one exponent the mantissas decide.
    have hpos : 0 < 2 ^ (e + 1074).toNat := Nat.two_pow_pos _
    rw [Int.compare_eq_eq.mpr rfl]
    show compare m m' = _
    rcases lt_trichotomy m m' with hlt | rfl | hgt
    · have hmultiple : multiple m e < multiple m' e := Nat.mul_lt_mul_of_pos_right hlt hpos
      rw [Nat.compare_eq_lt.mpr hlt, Int.compare_eq_lt.mpr (by exact_mod_cast hmultiple)]
    · rw [Nat.compare_eq_eq.mpr rfl, Int.compare_eq_eq.mpr rfl]
    · have hmultiple : multiple m' e < multiple m e := Nat.mul_lt_mul_of_pos_right hgt hpos
      rw [Nat.compare_eq_gt.mpr hgt, Int.compare_eq_gt.mpr (by exact_mod_cast hmultiple)]
  · have hmultiple := multiple_lt_of_exponent_lt full' full hgt
    rw [Int.compare_eq_gt.mpr hgt, Int.compare_eq_gt.mpr (by exact_mod_cast hmultiple)]
    rfl

/-- Opposites are in the opposite order. -/
theorem compare_neg_neg (a b : Int) : compare (-a) (-b) = (compare a b).swap := by
  rw [Int.compare_swap]
  rcases lt_trichotomy a b with hlt | rfl | hgt
  · rw [Int.compare_eq_gt.mpr hlt, Int.compare_eq_gt.mpr (by omega)]
  · rw [Int.compare_eq_eq.mpr rfl, Int.compare_eq_eq.mpr rfl]
  · rw [Int.compare_eq_lt.mpr hgt, Int.compare_eq_lt.mpr (by omega)]

theorem lt_compare {a b : Int} (h : a < b) : some .lt = some (compare a b) := by
  rw [Int.compare_eq_lt.mpr h]

theorem gt_compare {a b : Int} (h : b < a) : some .gt = some (compare a b) := by
  rw [Int.compare_eq_gt.mpr h]

theorem eq_compare (a : Int) : some .eq = some (compare a a) := by
  rw [Int.compare_eq_eq.mpr rfl]

/-- **Comparing numbers is comparing their ranks.** There is a case for each pair of kinds of
numbers and their signs. Where both are finite and of one sign, exponents are compared before
mantissas, as for the multiples. -/
theorem compare_eq {u v : UnpackedFloat} (hu : Canonical u) (hv : Canonical v)
    (hu' : u ≠ .notANumber) (hv' : v ≠ .notANumber) :
    u.compare v = some (compare (rankOf u) (rankOf v)) := by
  cases u with
  | notANumber => exact absurd rfl hu'
  | infinity s =>
    cases v with
    | notANumber => exact absurd rfl hv'
    | infinity s' =>
      have htop : (0 : Int) < top := by exact_mod_cast top_pos
      cases s <;> cases s'
      · exact eq_compare _
      · exact lt_compare (by show -(top : Int) < top; omega)
      · exact gt_compare (by show -(top : Int) < top; omega)
      · exact eq_compare _
    | zero s' =>
      obtain ⟨hgt, hlt⟩ := rankOf_bounds hv rfl
      cases s
      · exact lt_compare hgt
      · exact gt_compare hlt
    | finite s' m' e' h' =>
      obtain ⟨hgt, hlt⟩ := rankOf_bounds hv rfl
      cases s
      · exact lt_compare hgt
      · exact gt_compare hlt
  | zero s =>
    cases v with
    | notANumber => exact absurd rfl hv'
    | infinity s' =>
      obtain ⟨hgt, hlt⟩ := rankOf_bounds hu rfl
      cases s'
      · exact gt_compare hgt
      · exact lt_compare hlt
    | zero s' => exact eq_compare _
    | finite s' m' e' h' =>
      have hpos : (0 : Int) < multiple m' e' := by exact_mod_cast multiple_pos h' e'
      cases s'
      · exact gt_compare (by show -(multiple m' e' : Int) < 0; omega)
      · exact lt_compare hpos
  | finite s m e h =>
    cases v with
    | notANumber => exact absurd rfl hv'
    | infinity s' =>
      obtain ⟨hgt, hlt⟩ := rankOf_bounds hu rfl
      cases s <;> cases s'
      · exact gt_compare hgt
      · exact lt_compare hlt
      · exact gt_compare hgt
      · exact lt_compare hlt
    | zero s' =>
      have hpos : (0 : Int) < multiple m e := by exact_mod_cast multiple_pos h e
      cases s
      · exact lt_compare (by show -(multiple m e : Int) < 0; omega)
      · exact gt_compare hpos
    | finite s' m' e' h' =>
      have hpos : (0 : Int) < multiple m e := by exact_mod_cast multiple_pos h e
      have hpos' : (0 : Int) < multiple m' e' := by exact_mod_cast multiple_pos h' e'
      have hmultiple := compare_multiple hu.1 hv.1
      cases s <;> cases s'
      · -- among negative numbers the larger multiple is the lesser number.
        show some ((compare e e').then (compare m m')).swap = some (compare (-_) (-_))
        rw [compare_neg_neg, hmultiple]
      · exact lt_compare (by show -(multiple m e : Int) < multiple m' e'; omega)
      · exact gt_compare (by show -(multiple m' e' : Int) < multiple m e; omega)
      · show some ((compare e e').then (compare m m')) = _
        rw [hmultiple]
        rfl

/-! ## Numbers in order -/

variable {a b : Float}

/-- The rank of a number that is packed. -/
def rank (a : Float) : Int :=
  rankOf a.toModel.unpack

/-- The infinite values have the outermost ranks. What is not a number counts as the infinite
length, so that it is never the lesser one. -/
theorem rank_bounds (a : Float) : -top ≤ rank a ∧ rank a ≤ top := by
  have hcanonical := canonical_unpack a.toModel
  unfold rank
  cases hu : a.toModel.unpack with
  | notANumber => exact ⟨by show -(top : Int) ≤ top; omega, Int.le_refl _⟩
  | infinity s =>
    cases s
    · exact ⟨Int.le_refl _, by show -(top : Int) ≤ top; omega⟩
    · exact ⟨by show -(top : Int) ≤ top; omega, Int.le_refl _⟩
  | zero s =>
    rw [hu] at hcanonical
    obtain ⟨hlow, hhigh⟩ := rankOf_bounds hcanonical rfl
    exact ⟨Int.le_of_lt hlow, Int.le_of_lt hhigh⟩
  | finite s m e h =>
    rw [hu] at hcanonical
    obtain ⟨hlow, hhigh⟩ := rankOf_bounds hcanonical rfl
    exact ⟨Int.le_of_lt hlow, Int.le_of_lt hhigh⟩

/-- What is not a number is recognised by its kind once it is unpacked. -/
theorem isNaN_iff_unpack : a.isNaN = true ↔ a.toModel.unpack = .notANumber := by
  show a.toModel.unpack.isNaN = true ↔ _
  cases a.toModel.unpack with
  | notANumber => exact ⟨fun _ => rfl, fun _ => rfl⟩
  | infinity s => exact ⟨nofun, nofun⟩
  | zero s => exact ⟨nofun, nofun⟩
  | finite s m e h => exact ⟨nofun, nofun⟩

/-- What is not a number is ranked with the infinite value, so that the lesser of it and a number is
the number. -/
theorem rank_of_isNaN (ha : a.isNaN = true) : rank a = top := by
  rw [rank, isNaN_iff_unpack.mp ha]
  rfl

theorem unpack_ne_notANumber (ha : a.isNaN = false) : a.toModel.unpack ≠ .notANumber := by
  intro hunpack
  have hnan : a.isNaN = true := isNaN_iff_unpack.mpr hunpack
  exact Bool.false_ne_true (ha.symm.trans hnan)

/-- Two numbers compare as their ranks do. -/
theorem compare_rank (ha : a.isNaN = false) (hb : b.isNaN = false) :
    a.toModel.unpack.compare b.toModel.unpack = some (compare (rank a) (rank b)) :=
  compare_eq (canonical_unpack _) (canonical_unpack _) (unpack_ne_notANumber ha)
    (unpack_ne_notANumber hb)

/-- The order of packed numbers asks for the comparison of the unpacked ones. -/
theorem lt_iff_compare : a < b ↔ a.toModel.unpack.compare b.toModel.unpack = some .lt := by
  show decide (a.toModel < b.toModel) = true ↔ _
  rw [decide_eq_true_iff]
  exact beq_iff_eq

/-- For numbers, the order is that of the ranks. For what is not a number it would not be: nothing
is less than it, and it is less than nothing. -/
theorem lt_iff_rank_lt (ha : a.isNaN = false) (hb : b.isNaN = false) :
    a < b ↔ rank a < rank b := by
  rw [lt_iff_compare, compare_rank ha hb, Option.some_inj, Int.compare_eq_lt]

theorem le_iff_rank_le (ha : a.isNaN = false) (hb : b.isNaN = false) :
    a ≤ b ↔ rank a ≤ rank b := by
  show decide (a.toModel ≤ b.toModel) = true ↔ _
  rw [decide_eq_true_iff]
  show (a.toModel.unpack.compare b.toModel.unpack).any Ordering.isLE = true ↔ _
  rw [compare_rank ha hb]
  exact Int.isLE_compare

/-- What is not a number is not less than a number. -/
theorem not_lt_of_rank_le (ha : a.isNaN = false) (hle : rank a ≤ rank b) : ¬b < a := by
  intro hlt
  cases hb : b.isNaN with
  | true =>
    have hcompare := lt_iff_compare.mp hlt
    rw [isNaN_iff_unpack.mp hb] at hcompare
    exact nomatch hcompare
  | false => exact not_lt.mpr hle ((lt_iff_rank_lt hb ha).mp hlt)

end PathSum.Floating
