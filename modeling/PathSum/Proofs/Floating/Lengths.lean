import PathSum.Proofs.Floating.Addition
import PathSum.Proofs.Matrix.Loops
import PathSum.Weights.Floating

/-!
# Lengths that are rounded

Lengths are floating-point numbers, and every sum of two is rounded. Rounding keeps the order, so a
shortest path is still found step by step, although sums of rounded lengths depend on their order.
Lengths are compared by rank, where what is not a number is as long as the infinite length.

* `rank_lesser`, `rank_mul`: the operations on lengths are operations on ranks.
* `selects_minPlus`: the lesser of two lengths is the one of lower rank.
* `shortest_boundedStar`: an entry of the star is the length of a shortest path.
* `rank_le_rank_mul`: a step that is not negative does not make a path shorter.
* `boundedStar_minPlus_eq`: so stars stay the same.
-/

open Float.Model Float.Model.UnpackedFloat

namespace PathSum.Floating

variable {a b : Float}

/-! ## Lengths and ranks -/

/-- The lesser of two lengths has the lesser rank. Lengths that are not numbers have the rank of the
infinite length and lose against everything below it. -/
theorem rank_lesser (a b : Float) : rank (lesser a b) = min (rank a) (rank b) := by
  unfold lesser
  cases ha : a.isNaN with
  | true =>
    rw [if_pos rfl, rank_of_isNaN ha, min_eq_right (rank_bounds b).2]
  | false =>
    cases hb : b.isNaN with
    | true => rw [if_neg Bool.false_ne_true, if_pos rfl, rank_of_isNaN hb,
        min_eq_left (rank_bounds a).2]
    | false =>
      rw [if_neg Bool.false_ne_true, if_neg Bool.false_ne_true]
      by_cases hlt : b < a
      · rw [if_pos hlt, min_eq_right ((lt_iff_rank_lt hb ha).mp hlt).le]
      · rw [if_neg hlt, min_eq_left (not_lt.mp (mt (lt_iff_rank_lt hb ha).mpr hlt))]

/-- A length is infinite if it is the positive infinite value. The check is done on packed numbers.
-/
theorem beq_infinity_iff : (a == infinity) = true ↔ a.toModel.unpack = .infinity .positive := by
  show (a.toModel.unpack.compare (.infinity .positive) == some .eq) = true ↔ _
  cases a.toModel.unpack with
  | notANumber => exact ⟨nofun, nofun⟩
  | infinity s =>
    cases s
    · exact ⟨fun h => absurd h (by decide), nofun⟩
    · exact ⟨fun _ => rfl, fun _ => rfl⟩
  | zero s => exact ⟨nofun, nofun⟩
  | finite s m e h => cases s <;> exact ⟨nofun, nofun⟩

/-- Such a length has the largest rank. -/
theorem rank_of_beq_infinity (ha : (a == infinity) = true) : rank a = top := by
  rw [rank, beq_infinity_iff.mp ha]
  rfl

theorem rank_infinity : rank infinity = top :=
  rank_of_beq_infinity (beq_infinity_iff.mpr rfl)

/-- A length that is continued has the sum of the ranks, rounded where it is finite. The infinite
length is tested for first, so that it stays whatever it is continued by. -/
theorem rank_mul (a b : Float) :
    rank (Weights.minPlus.mul a b) = addRank (rank a) (rank b) := by
  show rank (if a == infinity || b == infinity then infinity else a + b) = _
  by_cases ha : (a == infinity) = true
  · rw [ha, rank_of_beq_infinity ha, top_addRank]
    exact rank_infinity
  · by_cases hb : (b == infinity) = true
    · rw [hb, rank_of_beq_infinity hb, addRank_comm, top_addRank, Bool.or_true]
      exact rank_infinity
    · rw [Bool.eq_false_iff.mpr ha, Bool.eq_false_iff.mpr hb]
      exact rankOf_add_eq (canonical_unpack _) (canonical_unpack _) (mt beq_infinity_iff.mpr ha)
        (mt beq_infinity_iff.mpr hb)

/-- **The lesser of two lengths is the one of lower rank**, and continuing both by the same step
keeps their order. -/
theorem selects_minPlus : Weights.minPlus.Selects fun a b => rank a ≤ rank b where
  trans := Int.le_trans
  mul_le_mul {a b} c h := by
    rw [rank_mul, rank_mul]
    exact addRank_mono h (rank_bounds a).1 (rank_bounds b).2 (rank c)
  add_eq a b := by
    show lesser a b = a ∨ lesser a b = b
    unfold lesser
    split_ifs <;> simp
  add_le_left a b := by
    show rank (lesser a b) ≤ rank a
    rw [rank_lesser]
    exact min_le_left ..
  add_le_right a b := by
    show rank (lesser a b) ≤ rank b
    rw [rank_lesser]
    exact min_le_right ..
  zero_mul a := by
    -- the infinite length is tested for before the sum, so no rounding is involved.
    have hself : (infinity == infinity) = true := beq_infinity_iff.mpr rfl
    show (if infinity == infinity || a == infinity then infinity else infinity + a) = infinity
    rw [hself, Bool.true_or]
    rfl

/-- A step that is not negative does not make a path shorter. Rounding keeps the order, and the
length before the step is not changed by it, so that the sum cannot fall below it. -/
theorem rank_le_rank_mul (a : Float) (hb : 0 ≤ rank b) :
    rank a ≤ rank (Weights.minPlus.mul a b) := by
  have htop : (0 : Int) < top := by exact_mod_cast top_pos
  have hbounds := rank_bounds a
  have hself : roundRank (rank a) = rank a := roundRank_rankOf (canonical_unpack a.toModel)
  have hround : roundRank (rank a) ≤ roundRank (rank a + rank b) := roundRank_mono (by omega)
  rw [rank_mul]
  unfold addRank
  split_ifs <;> omega

/-- A length that is not negative has no negative rank. For numbers this is the comparison with
zero, and what is not a number is ranked at the top. -/
theorem rank_nonneg (ha : 0 ≤ a) : 0 ≤ rank a := by
  have hzero : rank 0 = 0 := rfl
  cases hnan : a.isNaN with
  | true =>
    rw [rank_of_isNaN hnan]
    exact Int.natCast_nonneg top
  | false =>
    have hle := (le_iff_rank_le (by rfl) hnan).mp ha
    rwa [hzero] at hle

/-! ## Shortest paths -/

variable {n len : Nat} {A : Matrix Float n n}

/-- A length that is a number is kept where the other is not shorter. -/
theorem lesser_eq_left (ha : a.isNaN = false) (hle : rank a ≤ rank b) : lesser a b = a := by
  unfold lesser
  rw [ha, if_neg Bool.false_ne_true]
  cases hb : b.isNaN with
  | true => exact if_pos rfl
  | false =>
    rw [if_neg Bool.false_ne_true, if_neg (not_lt_of_rank_le ha hle)]

/-- The lesser of a number and anything else is a number. -/
theorem isNaN_lesser (ha : a.isNaN = false) : (lesser a b).isNaN = false := by
  unfold lesser
  rw [ha, if_neg Bool.false_ne_true]
  split_ifs with hb hlt
  · exact ha
  · simpa using hb
  · exact ha

/-- Every entry of the star is a number, also where the matrix has none. The star takes the lesser
of two lengths, and there what is not a number loses. -/
theorem isNaN_entry_boundedStar (len : Nat) (i j : Fin n) :
    ((A.boundedStar .minPlus len).entry i j).isNaN = false := by
  induction len with
  | zero =>
    rw [Matrix.boundedStar_zero, Matrix.entry_identity]
    split <;> rfl
  | succ len ih =>
    rw [Matrix.boundedStar_succ, Matrix.entry_add]
    exact isNaN_lesser ih

/-- **An entry of the star is a shortest path**, and the infinite length where no path has a length
that is a number. -/
theorem shortest_boundedStar (len : Nat) (i j : Fin n) :
    let x := (A.boundedStar .minPlus len).entry i j
    x.isNaN = false ∧
      (x = infinity ∨ ∃ stops ∈ pathsWithin n len i j, Weights.minPlus.pathWeight A i stops = x) ∧
      ∀ stops ∈ pathsWithin n len i j, ¬Weights.minPlus.pathWeight A i stops < x := by
  intro x
  have hnumber : x.isNaN = false := isNaN_entry_boundedStar len i j
  have hlightest := Matrix.lightest_boundedStar (A := A) selects_minPlus len i j
  exact ⟨hnumber, hlightest.reached, fun stops hstops =>
    not_lt_of_rank_le hnumber (hlightest.least stops hstops)⟩

/-- Where no step is negative, the star stays the same from some bound on. One more round brings a
length whose rank is not below that of the entry, and then the entry itself is taken for the lesser
one. -/
theorem boundedStar_minPlus_eq (nonneg : ∀ i j, 0 ≤ A.entry i j) (hlen : n ≤ len + 1) :
    A.boundedStar .minPlus len = A.boundedStar .minPlus (n - 1) := by
  refine Matrix.boundedStar_eq_of_stable (fun len hlen => ?_) hlen
  have grows (x : Float) (i j : Fin n) : rank x ≤ rank (Weights.minPlus.mul x (A.entry i j)) :=
    rank_le_rank_mul x (rank_nonneg (nonneg i j))
  have le_zero (x : Float) : rank x ≤ rank Weights.minPlus.zero := by
    have hzero : rank Weights.minPlus.zero = top := rank_infinity
    rw [hzero]
    exact (rank_bounds x).2
  rw [Matrix.boundedStar_succ]
  apply Matrix.ext_entry
  intro i j
  rw [Matrix.entry_add]
  exact lesser_eq_left (isNaN_entry_boundedStar len i j)
    (selects_minPlus.boundedStar_le_stepPower grows le_zero hlen i j)

end PathSum.Floating
