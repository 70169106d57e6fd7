import Mathlib.Algebra.BigOperators.Fin
import Mathlib.Algebra.BigOperators.Ring.Finset
import PathSum.Index
import PathSum.Weights.Laws

/-!
# Sums of lawful weights

Weights that obey the laws are an algebraic structure like any other, so their sums can be
rearranged as all finite sums can. The structures here are made from the laws for one proof at a
time; every statement that other modules use is about weights again.

* `PathLaws.sumOver_eq_finsetSum`: a sum from the left is a finite sum.
* `PathLaws.sumOver_add`, `PathLaws.sumOver_comm`: sums are split and exchanged.
* `PathLaws.sum_flatMap`: a list of lists is summed list by list.
* `CommSemiringLaws.sumOver_mul_sumOver`: the product of two sums is one sum over pairs.
-/

namespace PathSum

universe u v

variable {α : Type u} {m n : Nat}

/-- Two indices are the same as the index of their pair. -/
def Index.pairEquiv : Fin m × Fin n ≃ Fin (m * n) where
  toFun p := pair p.1 p.2
  invFun p := (fst p, snd p)
  left_inv p := by simp
  right_inv p := by simp

namespace Weights

variable {w : Weights α}

/-! ## Lawful weights as algebraic structures -/

/-- Weights whose sums can be taken in any order. -/
@[reducible]
def PathLaws.addCommMonoid (laws : w.PathLaws) : AddCommMonoid α :=
  let _ : Zero α := ⟨w.zero⟩
  let _ : Add α := ⟨w.add⟩
  { add_assoc := laws.add_assoc
    add_comm := laws.add_comm
    zero_add := laws.zero_add
    add_zero := laws.add_zero
    nsmul := nsmulRec }

@[reducible]
def SemiringLaws.semiring (laws : w.SemiringLaws) : Semiring α :=
  let _ : AddCommMonoid α := laws.toPathLaws.addCommMonoid
  let _ : One α := ⟨w.one⟩
  let _ : Mul α := ⟨w.mul⟩
  { mul_assoc := laws.mul_assoc
    one_mul := laws.one_mul
    mul_one := laws.mul_one
    left_distrib := laws.mul_add
    right_distrib := laws.add_mul
    zero_mul := laws.zero_mul
    mul_zero := laws.mul_zero
    npow := npowRec }

@[reducible]
def CommSemiringLaws.commSemiring (laws : w.CommSemiringLaws) : CommSemiring α :=
  let _ : Semiring α := laws.toSemiringLaws.semiring
  { mul_comm := laws.mul_comm }

/-- The weights of an algebraic structure, where only equal weights count as equal. -/
def ofSemiring (R : Type u) [Semiring R] [DecidableEq R] : Weights R where
  zero := 0
  one := 1
  add := (· + ·)
  mul := (· * ·)
  same a b := a = b

theorem semiringLaws_ofSemiring (R : Type u) [Semiring R] [DecidableEq R] :
    (ofSemiring R).SemiringLaws where
  add_assoc := add_assoc
  add_comm := add_comm
  zero_add := zero_add
  add_mul := add_mul
  zero_mul := zero_mul
  mul_assoc := mul_assoc
  one_mul := one_mul
  mul_one := mul_one
  mul_add := mul_add
  mul_zero := mul_zero

theorem commSemiringLaws_ofSemiring (R : Type u) [CommSemiring R] [DecidableEq R] :
    (ofSemiring R).CommSemiringLaws where
  toSemiringLaws := semiringLaws_ofSemiring R
  mul_comm := mul_comm

/-- A sum from the left is the finite sum. The laws make the weights a commutative monoid under
addition, so that finite sums can be rearranged as the library does. -/
theorem PathLaws.sumOver_eq_finsetSum (laws : w.PathLaws) (f : Fin n → α) :
    let _ := laws.addCommMonoid
    w.sumOver n f = ∑ i, f i := by
  induction n with
  | zero =>
    intro
    rw [sumOver_zero, Fin.sum_univ_zero]
    rfl
  | succ n ih =>
    intro
    rw [sumOver_succ, ih, Fin.sum_univ_castSucc]
    rfl

/-! ## Sums of sums -/

theorem PathLaws.sumOver_add (laws : w.PathLaws) (f g : Fin n → α) :
    w.sumOver n (fun i => w.add (f i) (g i)) = w.add (w.sumOver n f) (w.sumOver n g) := by
  let _ := laws.addCommMonoid
  simp only [laws.sumOver_eq_finsetSum]
  exact Finset.sum_add_distrib

theorem PathLaws.sumOver_comm (laws : w.PathLaws) (f : Fin m → Fin n → α) :
    (w.sumOver m fun i => w.sumOver n fun j => f i j) =
      w.sumOver n fun j => w.sumOver m fun i => f i j := by
  let _ := laws.addCommMonoid
  simp only [laws.sumOver_eq_finsetSum]
  exact Finset.sum_comm

theorem PathLaws.sumOver_const_zero (laws : w.PathLaws) :
    (w.sumOver n fun _ => w.zero) = w.zero := by
  let _ := laws.addCommMonoid
  rw [laws.sumOver_eq_finsetSum]
  exact Finset.sum_const_zero

/-- A sum with only one term that is not zero is this term. -/
theorem PathLaws.sumOver_eq_single (laws : w.PathLaws) {f : Fin n → α} (i : Fin n)
    (others : ∀ j, j ≠ i → f j = w.zero) : w.sumOver n f = f i := by
  let _ := laws.addCommMonoid
  rw [laws.sumOver_eq_finsetSum]
  exact Fintype.sum_eq_single i others

/-- A product of sums of products is the sum over all pairs of indices. Each term is a product of
two products whose middle factors change places; this is what commutativity is needed for. -/
theorem CommSemiringLaws.sumOver_mul_sumOver (laws : w.CommSemiringLaws) (a b : Fin m → α)
    (c d : Fin n → α) :
    (w.sumOver (m * n) fun p => w.mul (w.mul (a (Index.fst p)) (c (Index.snd p)))
        (w.mul (b (Index.fst p)) (d (Index.snd p)))) =
      w.mul (w.sumOver m fun i => w.mul (a i) (b i)) (w.sumOver n fun j => w.mul (c j) (d j)) := by
  let _ := laws.commSemiring
  simp only [laws.sumOver_eq_finsetSum]
  symm
  calc (∑ i, a i * b i) * ∑ j, c j * d j
      = ∑ p : Fin m × Fin n, (a p.1 * b p.1) * (c p.2 * d p.2) := by
        rw [Finset.sum_mul_sum, Fintype.sum_prod_type]
    _ = ∑ p : Fin m × Fin n, (a p.1 * c p.2) * (b p.1 * d p.2) :=
        Finset.sum_congr rfl fun p _ => mul_mul_mul_comm ..
    _ = ∑ p : Fin (m * n),
          (a (Index.fst p) * c (Index.snd p)) * (b (Index.fst p) * d (Index.snd p)) :=
        Fintype.sum_equiv Index.pairEquiv _ _ fun p => by simp [Index.pairEquiv]

/-! ## Sums over lists -/

theorem sumOver_eq_sum_finRange (f : Fin n → α) :
    w.sumOver n f = w.sum ((List.finRange n).map f) := by
  rw [sumOver_eq_sum, List.ofFn_eq_map]

theorem sumOver_get (v : Vector α n) : w.sumOver n v.get = w.sum v.toList := by
  rw [sumOver_eq_sum]
  congr 1
  exact List.ext_getElem (by simp) fun i _ _ => by simp [Vector.get]

/-- Terms that are left out of a sum could as well be zero. The others keep their order. -/
theorem PathLaws.sum_filter {β : Type v} (laws : w.PathLaws) (items : List β) (p : β → Bool)
    (f : β → α) :
    w.sum ((items.filter p).map f) = w.sum (items.map fun x => if p x then f x else w.zero) := by
  induction items with
  | nil => rfl
  | cons x items ih =>
    by_cases hx : p x
    · rw [List.filter_cons_of_pos hx, List.map_cons, List.map_cons, laws.sum_cons, laws.sum_cons,
        ih, if_pos hx]
    · rw [List.filter_cons_of_neg hx, List.map_cons, laws.sum_cons, ih, if_neg hx, laws.zero_add]

/-- A list of lists is summed list by list. -/
theorem PathLaws.sum_flatMap {β : Type v} (laws : w.PathLaws) (items : List β) (f : β → List α) :
    w.sum (items.flatMap f) = w.sum (items.map fun x => w.sum (f x)) := by
  induction items with
  | nil => rfl
  | cons x items ih =>
    rw [List.flatMap_cons, laws.sum_append, ih, List.map_cons, laws.sum_cons]

end Weights

end PathSum
