import PathSum.Proofs.FixedWidth.Truncation
import PathSum.Proofs.Weights.Sums

/-!
# The laws of weights of 64 bits

Sums and products of counts may stop at the largest count, those of signed numbers may wrap around,
and each law compares computations that do so at different places. No law is checked by cases of
what fits. Both kinds of weights are what a truncation leaves of exact numbers (`saturate`,
`Int64.ofInt`); it goes through all operations and reaches every word of 64 bits. So an equation
between exact numbers is also one between the words.

* `Hom.pathLaws`, `SemiringHom.commSemiringLaws`, `RingWeights.Hom.commRingLaws`: laws go along a
  map that goes through the operations and reaches all weights.
* `semiringHom_saturate`, `ringHom_ofInt`: the two truncations are such maps.
-/

namespace PathSum

universe u v

variable {α : Type u} {β : Type v} {f : α → β}

/-! ## Laws along a map -/

namespace Weights

/-- A map that also keeps the weight of the path without steps. -/
structure SemiringHom (w : Weights α) (w' : Weights β) (f : α → β) : Prop extends w.Hom w' f where
  map_one : f w.one = w'.one

variable {w : Weights α} {w' : Weights β}

/-- Every weight of the target is `f a` for some `a`, so a law is checked on images only, where it
is the image of the law of the source. -/
theorem Hom.pathLaws (hf : w.Hom w' f) (onto : f.Surjective) (laws : w.PathLaws) :
    w'.PathLaws where
  add_assoc x y z := by
    obtain ⟨a, rfl⟩ := onto x
    obtain ⟨b, rfl⟩ := onto y
    obtain ⟨c, rfl⟩ := onto z
    rw [← hf.map_add, ← hf.map_add, laws.add_assoc, hf.map_add, hf.map_add]
  add_comm x y := by
    obtain ⟨a, rfl⟩ := onto x
    obtain ⟨b, rfl⟩ := onto y
    rw [← hf.map_add, laws.add_comm, hf.map_add]
  zero_add x := by
    obtain ⟨a, rfl⟩ := onto x
    rw [← hf.map_zero, ← hf.map_add, laws.zero_add]
  add_mul x y z := by
    obtain ⟨a, rfl⟩ := onto x
    obtain ⟨b, rfl⟩ := onto y
    obtain ⟨c, rfl⟩ := onto z
    rw [← hf.map_add, ← hf.map_mul, laws.add_mul, hf.map_add, hf.map_mul, hf.map_mul]
  zero_mul x := by
    obtain ⟨a, rfl⟩ := onto x
    rw [← hf.map_zero, ← hf.map_mul, laws.zero_mul]

theorem SemiringHom.semiringLaws (hf : w.SemiringHom w' f) (onto : f.Surjective)
    (laws : w.SemiringLaws) : w'.SemiringLaws where
  toPathLaws := hf.pathLaws onto laws.toPathLaws
  mul_assoc x y z := by
    obtain ⟨a, rfl⟩ := onto x
    obtain ⟨b, rfl⟩ := onto y
    obtain ⟨c, rfl⟩ := onto z
    rw [← hf.map_mul, ← hf.map_mul, laws.mul_assoc, hf.map_mul, hf.map_mul]
  one_mul x := by
    obtain ⟨a, rfl⟩ := onto x
    rw [← hf.map_one, ← hf.map_mul, laws.one_mul]
  mul_one x := by
    obtain ⟨a, rfl⟩ := onto x
    rw [← hf.map_one, ← hf.map_mul, laws.mul_one]
  mul_add x y z := by
    obtain ⟨a, rfl⟩ := onto x
    obtain ⟨b, rfl⟩ := onto y
    obtain ⟨c, rfl⟩ := onto z
    rw [← hf.map_add, ← hf.map_mul, laws.mul_add, hf.map_add, hf.map_mul, hf.map_mul]
  mul_zero x := by
    obtain ⟨a, rfl⟩ := onto x
    rw [← hf.map_zero, ← hf.map_mul, laws.mul_zero]

theorem SemiringHom.commSemiringLaws (hf : w.SemiringHom w' f) (onto : f.Surjective)
    (laws : w.CommSemiringLaws) : w'.CommSemiringLaws where
  toSemiringLaws := hf.semiringLaws onto laws.toSemiringLaws
  mul_comm x y := by
    obtain ⟨a, rfl⟩ := onto x
    obtain ⟨b, rfl⟩ := onto y
    rw [← hf.map_mul, laws.mul_comm, hf.map_mul]

end Weights

namespace RingWeights

/-- A map that also goes through opposites and differences, each computed in its own way. -/
structure Hom (w : RingWeights α) (w' : RingWeights β) (f : α → β) : Prop
    extends w.toWeights.SemiringHom w'.toWeights f where
  map_neg : ∀ a, f (w.neg a) = w'.neg (f a)
  map_sub : ∀ a b, f (w.sub a b) = w'.sub (f a) (f b)

theorem Hom.commRingLaws {w : RingWeights α} {w' : RingWeights β} (hf : w.Hom w' f)
    (onto : f.Surjective) (laws : w.CommRingLaws) : w'.CommRingLaws where
  toCommSemiringLaws := hf.commSemiringLaws onto laws.toCommSemiringLaws
  add_neg x := by
    obtain ⟨a, rfl⟩ := onto x
    rw [← hf.map_neg, ← hf.map_add, laws.add_neg, hf.map_zero]

/-- The weights of a ring, where only equal weights count as equal. -/
def ofRing (R : Type u) [Ring R] [DecidableEq R] : RingWeights R where
  toWeights := .ofSemiring R
  neg a := -a
  sub a b := a - b

theorem commRingLaws_ofRing (R : Type u) [CommRing R] [DecidableEq R] :
    (ofRing R).CommRingLaws where
  toCommSemiringLaws := Weights.commSemiringLaws_ofSemiring R
  add_neg := add_neg_cancel

end RingWeights

/-! ## Counts -/

theorem saturate_surjective : Function.Surjective saturate := by
  intro c
  exact ⟨c.toNat, saturate_toNat c⟩

theorem semiringHom_saturate : (Weights.ofSemiring Nat).SemiringHom .counting saturate where
  toHom := hom_saturate
  map_one := rfl

/-! ## Signed numbers -/

theorem ofInt_surjective : Function.Surjective Int64.ofInt := by
  intro d
  exact ⟨d.toInt, Int64.ofInt_toInt d⟩

theorem ringHom_ofInt : (RingWeights.ofRing Int).Hom .wrapping Int64.ofInt where
  toHom := hom_ofInt
  map_one := rfl
  map_neg := Int64.ofInt_neg
  map_sub := Int64.ofInt_sub

/-! ## All together -/

/-- **Words of 64 bits are lawful over their whole range.** Counts that stop at the largest one are
a commutative semiring, the image of the natural numbers cut off at `2 ^ 64 - 1`. Signed numbers
that wrap around are a commutative ring, the image of the integers under the one representative
modulo `2 ^ 64`. Their differences, computed in one step, are sums with the opposite, also where
the opposite does not fit. -/
theorem fixedWidth_laws :
    (Weights.counting.CommSemiringLaws ∧
      (Weights.ofSemiring Nat).SemiringHom .counting saturate ∧
      Function.Surjective saturate ∧
      ∀ x, (saturate x).toNat = min x (2 ^ 64 - 1)) ∧
    RingWeights.wrapping.CommRingLaws ∧
      (RingWeights.ofRing Int).Hom .wrapping Int64.ofInt ∧
      (∀ z (d : Int64), d.toInt ≡ z [ZMOD 2 ^ 64] ↔ d = Int64.ofInt z) ∧
      ∀ a b, RingWeights.wrapping.sub a b =
        RingWeights.wrapping.add a (RingWeights.wrapping.neg b) := by
  have counts : Weights.counting.CommSemiringLaws :=
    semiringHom_saturate.commSemiringLaws saturate_surjective
      (Weights.commSemiringLaws_ofSemiring Nat)
  have signed : RingWeights.wrapping.CommRingLaws :=
    ringHom_ofInt.commRingLaws ofInt_surjective (RingWeights.commRingLaws_ofRing Int)
  exact ⟨⟨counts, semiringHom_saturate, saturate_surjective, toNat_saturate⟩,
    signed, ringHom_ofInt, toInt_modEq_iff, Int64.sub_eq_add_neg⟩

/-- The least number is its own opposite. -/
example : RingWeights.wrapping.sub 0 Int64.minValue = Int64.minValue := by decide

end PathSum
