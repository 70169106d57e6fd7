import PathSum.Proofs.Matrix.Boolean
import PathSum.Proofs.Matrix.Carrying
import PathSum.Proofs.Matrix.Storage
import PathSum.Weights.FixedWidth

/-!
# Laws of matrices

Matrices over a semiring are added and multiplied like its elements, wherever their shapes go
together. This includes shapes without rows or columns: a product over no index at all is a matrix
of zeros.

* `Matrix.mul_assoc`: a product of three sums over two indices, in either order.
* `Matrix.identity_mul`, `Matrix.mul_identity`: the identity picks one term of each sum.
* `Weights.SemiringLaws.matrices`: the square matrices of one size are lawful weights again.
* `StoredMatrix.laws_exact`: all of it for stored matrices, whose shapes are checked and whose sizes
  are computed in 64 bits. The laws need that the machine holds every shape that they speak of:
  `StoredMatrix.mul_assoc_too_large` shows a law that fails where it does not.
-/

namespace PathSum

universe u

variable {α : Type u} {w : Weights α} {m n p q : Nat}

namespace Matrix

/-! ## Sums -/

protected theorem add_assoc (laws : w.PathLaws) (A B C : Matrix α m n) :
    (A.add w B).add w C = A.add w (B.add w C) := by
  apply ext_entry
  intro i j
  simp only [entry_add, laws.add_assoc]

protected theorem add_comm (laws : w.PathLaws) (A B : Matrix α m n) : A.add w B = B.add w A := by
  apply ext_entry
  intro i j
  rw [entry_add, entry_add, laws.add_comm]

protected theorem zero_add (laws : w.PathLaws) (A : Matrix α m n) : (zero w m n).add w A = A := by
  apply ext_entry
  intro i j
  rw [entry_add, entry_zero, laws.zero_add]

/-! ## Products of sums -/

protected theorem add_mul (laws : w.PathLaws) (A B : Matrix α m n) (C : Matrix α n p) :
    (A.add w B).mul w C = (A.mul w C).add w (B.mul w C) := by
  apply ext_entry
  intro i j
  simp only [entry_mul, entry_add, laws.add_mul, laws.sumOver_add]

protected theorem mul_add (laws : w.SemiringLaws) (A : Matrix α m n) (B C : Matrix α n p) :
    A.mul w (B.add w C) = (A.mul w B).add w (A.mul w C) := by
  apply ext_entry
  intro i j
  simp only [entry_mul, entry_add, laws.mul_add, laws.sumOver_add]

protected theorem zero_mul (laws : w.PathLaws) (A : Matrix α n p) :
    (zero w m n).mul w A = zero w m p := by
  apply ext_entry
  intro i j
  simp only [entry_mul, entry_zero, laws.zero_mul, laws.sumOver_const_zero]

protected theorem mul_zero (laws : w.SemiringLaws) (A : Matrix α m n) :
    A.mul w (zero w n p) = zero w m p := by
  apply ext_entry
  intro i j
  simp only [entry_mul, entry_zero, laws.mul_zero, laws.sumOver_const_zero]

/-! ## Products of products -/

theorem identity_mul (laws : w.SemiringLaws) (A : Matrix α m n) : (identity w m).mul w A = A := by
  apply ext_entry
  intro i j
  rw [entry_mul, laws.sumOver_eq_single i fun k hk => ?_, entry_identity, if_pos rfl, laws.one_mul]
  rw [entry_identity, if_neg hk.symm, laws.zero_mul]

theorem mul_identity (laws : w.SemiringLaws) (A : Matrix α m n) : A.mul w (identity w n) = A := by
  apply ext_entry
  intro i j
  rw [entry_mul, laws.sumOver_eq_single j fun k hk => ?_, entry_identity, if_pos rfl, laws.mul_one]
  rw [entry_identity, if_neg hk, laws.mul_zero]

/-- Of a product of three, an entry is the sum over the two indices between the factors. The two
sums change places, and each factor that does not depend on the inner index is taken out of it. -/
protected theorem mul_assoc (laws : w.SemiringLaws) (A : Matrix α m n) (B : Matrix α n p)
    (C : Matrix α p q) : (A.mul w B).mul w C = A.mul w (B.mul w C) := by
  apply ext_entry
  intro i j
  calc ((A.mul w B).mul w C).entry i j
      = w.sumOver p fun l =>
          w.mul (w.sumOver n fun k => w.mul (A.entry i k) (B.entry k l)) (C.entry l j) := by
        simp only [entry_mul]
    _ = w.sumOver p fun l => w.sumOver n fun k =>
          w.mul (w.mul (A.entry i k) (B.entry k l)) (C.entry l j) := by
        simp only [(laws.additive_mul_right _).map_sumOver]
    _ = w.sumOver n fun k => w.sumOver p fun l =>
          w.mul (A.entry i k) (w.mul (B.entry k l) (C.entry l j)) := by
        simp only [laws.sumOver_comm (m := p), laws.mul_assoc]
    _ = w.sumOver n fun k =>
          w.mul (A.entry i k) (w.sumOver p fun l => w.mul (B.entry k l) (C.entry l j)) := by
        simp only [(laws.additive_mul_left _).map_sumOver]
    _ = (A.mul w (B.mul w C)).entry i j := by
        simp only [entry_mul]

end Matrix

/-! ## Matrices as weights -/

/-- The square matrices of one size, as weights. -/
def Weights.matrices (w : Weights α) (n : Nat) : Weights (Matrix α n n) where
  zero := .zero w n n
  one := .identity w n
  add := .add w
  mul := .mul w
  same := Matrix.same w

theorem Weights.SemiringLaws.matrices (laws : w.SemiringLaws) (n : Nat) :
    (w.matrices n).SemiringLaws where
  add_assoc := Matrix.add_assoc laws.toPathLaws
  add_comm := Matrix.add_comm laws.toPathLaws
  zero_add := Matrix.zero_add laws.toPathLaws
  add_mul := Matrix.add_mul laws.toPathLaws
  zero_mul := Matrix.zero_mul laws.toPathLaws
  mul_assoc := Matrix.mul_assoc laws
  one_mul := Matrix.identity_mul laws
  mul_one := Matrix.mul_identity laws
  mul_add := Matrix.mul_add laws
  mul_zero := Matrix.mul_zero laws

/-! ## Stored matrices -/

namespace StoredMatrix

variable {α : Type} {w : Weights α} {machine : Machine}

/-- The laws of a semiring, for all stored matrices that are all there and whose shapes go together.
Every sum and every product in a law has a result, as long as the machine holds the shapes of all
matrices that the law speaks of. -/
structure Laws (machine : Machine) (w : Weights α) : Prop where
  add_assoc {A B C : StoredMatrix α} : A.Whole machine → B.Whole machine → C.Whole machine →
    A.shape = B.shape → B.shape = C.shape → ∃ AB BC S,
      A.add w B = .ok AB ∧ B.add w C = .ok BC ∧ AB.add w C = .ok S ∧ A.add w BC = .ok S
  add_comm {A B : StoredMatrix α} : A.Whole machine → B.Whole machine → A.shape = B.shape →
    ∃ S, A.add w B = .ok S ∧ B.add w A = .ok S
  zero_add_zero {A : StoredMatrix α} : A.Whole machine → ∃ Z,
    zero machine w A.rows A.cols = .ok Z ∧ Z.add w A = .ok A ∧ A.add w Z = .ok A
  mul_assoc {A B C : StoredMatrix α} : A.Whole machine → B.Whole machine → C.Whole machine →
    A.cols = B.rows → B.cols = C.rows →
    machine.Holds A.rows B.cols → machine.Holds B.rows C.cols → machine.Holds A.rows C.cols →
    ∃ AB BC P, A.mul machine w B = .ok AB ∧ B.mul machine w C = .ok BC ∧
      AB.mul machine w C = .ok P ∧ A.mul machine w BC = .ok P
  identity_mul {A : StoredMatrix α} : A.Whole machine → machine.Holds A.rows A.rows → ∃ I,
    identity machine w A.rows = .ok I ∧ I.mul machine w A = .ok A
  mul_identity {A : StoredMatrix α} : A.Whole machine → machine.Holds A.cols A.cols → ∃ I,
    identity machine w A.cols = .ok I ∧ A.mul machine w I = .ok A
  add_mul {A B C : StoredMatrix α} : A.Whole machine → B.Whole machine → C.Whole machine →
    A.shape = B.shape → A.cols = C.rows → machine.Holds A.rows C.cols → ∃ S AC BC P,
      A.add w B = .ok S ∧ A.mul machine w C = .ok AC ∧ B.mul machine w C = .ok BC ∧
        S.mul machine w C = .ok P ∧ AC.add w BC = .ok P
  mul_add {A B C : StoredMatrix α} : A.Whole machine → B.Whole machine → C.Whole machine →
    A.cols = B.rows → B.shape = C.shape → machine.Holds A.rows B.cols → ∃ S AB AC P,
      B.add w C = .ok S ∧ A.mul machine w B = .ok AB ∧ A.mul machine w C = .ok AC ∧
        A.mul machine w S = .ok P ∧ AB.add w AC = .ok P
  zero_mul {A : StoredMatrix α} {m : Nat} : A.Whole machine → machine.Holds m A.rows →
    machine.Holds m A.cols → ∃ Z P, zero machine w m A.rows = .ok Z ∧
      zero machine w m A.cols = .ok P ∧ Z.mul machine w A = .ok P
  mul_zero {A : StoredMatrix α} {p : Nat} : A.Whole machine → machine.Holds A.cols p →
    machine.Holds A.rows p → ∃ Z P, zero machine w A.cols p = .ok Z ∧
      zero machine w A.rows p = .ok P ∧ A.mul machine w Z = .ok P

/-- Each law is that of the matrices of known shape, since the machine computes them as they are. A
stored matrix that is all there is one of known shape, and the conditions on shapes make the types
fit. -/
theorem laws_of_semiringLaws (laws : w.SemiringLaws) : Laws machine w where
  add_assoc {A B C} hA hB hC hAB hBC := by
    obtain ⟨m, n, A, -, rfl⟩ := hA.exists_matrix
    obtain ⟨_, _, B, -, rfl⟩ := hB.exists_matrix
    obtain ⟨_, _, C, -, rfl⟩ := hC.exists_matrix
    obtain ⟨rfl, rfl⟩ := Matrix.dims_eq_of_shape hAB
    obtain ⟨rfl, rfl⟩ := Matrix.dims_eq_of_shape hBC
    refine ⟨_, _, _, A.add_stored w B, B.add_stored w C, (A.add w B).add_stored w C, ?_⟩
    rw [Matrix.add_assoc laws.toPathLaws]
    exact A.add_stored w (B.add w C)
  add_comm {A B} hA hB hAB := by
    obtain ⟨m, n, A, -, rfl⟩ := hA.exists_matrix
    obtain ⟨_, _, B, -, rfl⟩ := hB.exists_matrix
    obtain ⟨rfl, rfl⟩ := Matrix.dims_eq_of_shape hAB
    refine ⟨_, A.add_stored w B, ?_⟩
    rw [Matrix.add_comm laws.toPathLaws]
    exact B.add_stored w A
  zero_add_zero {A} hA := by
    obtain ⟨m, n, A, hholds, rfl⟩ := hA.exists_matrix
    have hzero := Matrix.zero_add laws.toPathLaws A
    refine ⟨_, Matrix.zero_stored hholds w, ?_, ?_⟩
    · rw [Matrix.add_stored, hzero]
    · rw [Matrix.add_stored, Matrix.add_comm laws.toPathLaws, hzero]
  mul_assoc {A B C} hA hB hC hAB hBC hmp hnq hmq := by
    obtain ⟨m, n, A, hmn, rfl⟩ := hA.exists_matrix
    obtain ⟨_, p, B, hnp, rfl⟩ := hB.exists_matrix
    obtain ⟨_, q, C, hpq, rfl⟩ := hC.exists_matrix
    obtain rfl : n = _ := hAB
    obtain rfl : p = _ := hBC
    simp only [Matrix.rows_stored, Matrix.cols_stored] at hmp hnq hmq
    -- three products are made as they are, and the fourth is the third by associativity.
    refine ⟨_, _, _, Matrix.mul_stored hmn hnp hmp w A B, Matrix.mul_stored hnp hpq hnq w B C,
      Matrix.mul_stored hmp hpq hmq w (A.mul w B) C, ?_⟩
    rw [Matrix.mul_assoc laws]
    exact Matrix.mul_stored hmn hnq hmq w A (B.mul w C)
  identity_mul {A} hA hmm := by
    obtain ⟨m, n, A, hmn, rfl⟩ := hA.exists_matrix
    rw [Matrix.rows_stored] at hmm
    refine ⟨_, Matrix.identity_stored hmm w, ?_⟩
    have hproduct := Matrix.mul_stored hmm hmn hmn w (.identity w m) A
    rwa [Matrix.identity_mul laws] at hproduct
  mul_identity {A} hA hnn := by
    obtain ⟨m, n, A, hmn, rfl⟩ := hA.exists_matrix
    rw [Matrix.cols_stored] at hnn
    refine ⟨_, Matrix.identity_stored hnn w, ?_⟩
    have hproduct := Matrix.mul_stored hmn hnn hmn w A (.identity w n)
    rwa [Matrix.mul_identity laws] at hproduct
  add_mul {A B C} hA hB hC hAB hAC hmp := by
    obtain ⟨m, n, A, hmn, rfl⟩ := hA.exists_matrix
    obtain ⟨_, _, B, -, rfl⟩ := hB.exists_matrix
    obtain ⟨_, p, C, hnp, rfl⟩ := hC.exists_matrix
    obtain ⟨rfl, rfl⟩ := Matrix.dims_eq_of_shape hAB
    obtain rfl : n = _ := hAC
    rw [Matrix.rows_stored, Matrix.cols_stored] at hmp
    refine ⟨_, _, _, _, A.add_stored w B, Matrix.mul_stored hmn hnp hmp w A C,
      Matrix.mul_stored hmn hnp hmp w B C, Matrix.mul_stored hmn hnp hmp w (A.add w B) C, ?_⟩
    rw [Matrix.add_mul laws.toPathLaws]
    exact (A.mul w C).add_stored w (B.mul w C)
  mul_add {A B C} hA hB hC hAB hBC hmp := by
    obtain ⟨m, n, A, hmn, rfl⟩ := hA.exists_matrix
    obtain ⟨_, p, B, hnp, rfl⟩ := hB.exists_matrix
    obtain ⟨_, _, C, -, rfl⟩ := hC.exists_matrix
    obtain rfl : n = _ := hAB
    obtain ⟨rfl, rfl⟩ := Matrix.dims_eq_of_shape hBC
    rw [Matrix.rows_stored, Matrix.cols_stored] at hmp
    refine ⟨_, _, _, _, B.add_stored w C, Matrix.mul_stored hmn hnp hmp w A B,
      Matrix.mul_stored hmn hnp hmp w A C, Matrix.mul_stored hmn hnp hmp w A (B.add w C), ?_⟩
    rw [Matrix.mul_add laws]
    exact (A.mul w B).add_stored w (A.mul w C)
  zero_mul {A m} hA hmr hmc := by
    obtain ⟨r, c, A, hrc, rfl⟩ := hA.exists_matrix
    rw [Matrix.rows_stored] at hmr
    rw [Matrix.cols_stored] at hmc
    refine ⟨_, _, Matrix.zero_stored hmr w, Matrix.zero_stored hmc w, ?_⟩
    have hproduct := Matrix.mul_stored hmr hrc hmc w (.zero w m r) A
    rwa [Matrix.zero_mul laws.toPathLaws] at hproduct
  mul_zero {A p} hA hcp hrp := by
    obtain ⟨r, c, A, hrc, rfl⟩ := hA.exists_matrix
    rw [Matrix.cols_stored] at hcp
    rw [Matrix.rows_stored] at hrp
    refine ⟨_, _, Matrix.zero_stored hcp w, Matrix.zero_stored hrp w, ?_⟩
    have hproduct := Matrix.mul_stored hrc hcp hrp w A (.zero w c p)
    rwa [Matrix.mul_zero laws] at hproduct

/-- **Matrices over a semiring obey its laws.** This holds for all shapes that go together and that
the machine holds, those without rows or columns included, however the program is built. Whatever
the weights are and whatever the matrices, a product reports shapes exactly if the left columns are
not as many as the right rows, and a sum fails exactly if the shapes differ, and then both shapes
are reported. -/
theorem laws_exact (machine : Machine) (w : Weights α) :
    (w.SemiringLaws → Laws machine w) ∧
    (∀ (A B : StoredMatrix α) (e : ShapeError), A.mul machine w B = .error (.shape e) ↔
      A.cols ≠ B.rows ∧ e = .mulMismatch A.shape B.shape) ∧
    ∀ (A B : StoredMatrix α) (fault : MatrixFault), A.add w B = .error fault ↔
      A.shape ≠ B.shape ∧ fault = .shape (.addMismatch A.shape B.shape) :=
  ⟨laws_of_semiringLaws, fun _ _ _ => mul_eq_shape_error_iff, fun _ _ _ => add_eq_error_iff⟩

end StoredMatrix

namespace AnyMatrix

/-- Boolean matrices with two rows and two columns as weights. Their products depend on the order of
the factors. -/
def blocks : Weights (Matrix Bool 2 2) :=
  .matrices .boolean 2

/-- Two blocks beside each other. -/
def ladder : AnyMatrix (Matrix Bool 2 2) :=
  of (m := 1) (n := 2) (.ofFn fun _ c => .ofFn fun i j => if c.val = 0 then i < j else j < i)

end AnyMatrix

namespace StoredMatrix

open AnyMatrix (blocks ladder)

/-- Blocks over a ladder: a product of three, one that does not exist, and a sum that does not. The
entries are matrices themselves, so their products depend on the order of the factors. -/
theorem laws_exact_blocks :
    blocks.SemiringLaws ∧ (∃ i j, blocks.mul i j ≠ blocks.mul j i) ∧
    (∃ AB BC P,
      ladder.stored.mul (.ofEntryBytes .wraps 8) blocks ladder.transpose.stored = .ok AB ∧
      ladder.transpose.stored.mul (.ofEntryBytes .wraps 8) blocks ladder.stored = .ok BC ∧
      AB.mul (.ofEntryBytes .wraps 8) blocks ladder.stored = .ok P ∧
      ladder.stored.mul (.ofEntryBytes .wraps 8) blocks BC = .ok P) ∧
    ladder.stored.mul (.ofEntryBytes .wraps 8) blocks ladder.stored =
      .error (.shape (.mulMismatch ⟨1, 2⟩ ⟨1, 2⟩)) ∧
    ladder.stored.add blocks ladder.transpose.stored =
      .error (.shape (.addMismatch ⟨1, 2⟩ ⟨2, 1⟩)) := by
  have laws : blocks.SemiringLaws := Weights.boolean_laws.toSemiringLaws.matrices 2
  obtain ⟨hlaws, hmul, hadd⟩ := laws_exact (.ofEntryBytes .wraps 8) blocks
  have hwide : ladder.stored.Whole (.ofEntryBytes .wraps 8) := AnyMatrix.whole_stored (by decide)
  have htall : ladder.transpose.stored.Whole (.ofEntryBytes .wraps 8) :=
    AnyMatrix.whole_stored (by decide)
  refine ⟨laws, ⟨.ofFn fun i j => i < j, .ofFn fun i j => j < i, by decide⟩, ?_, ?_, ?_⟩
  · exact (hlaws laws).mul_assoc hwide htall hwide rfl rfl (by decide) (by decide)
      hwide.holds
  · exact (hmul ladder.stored ladder.stored _).mpr ⟨by decide, rfl⟩
  · exact (hadd ladder.stored ladder.transpose.stored _).mpr ⟨by decide, rfl⟩

/-- **A product of three may exist in one order only.** Three matrices without entries go together,
and the product of the last two has no entries either; but the product of the first two would have
`3 * 2 ^ 63` entries, which no array has, however the program is built. -/
theorem mul_assoc_too_large :
    (hollow UInt64 3 0).cols = (hollow UInt64 0 (2 ^ 63)).rows ∧
    (hollow UInt64 0 (2 ^ 63)).cols = (hollow UInt64 (2 ^ 63) 0).rows ∧
    ∀ overflow : Overflow,
      (∀ AB, (hollow UInt64 3 0).mul (.ofEntryBytes overflow 8) .counting
        (hollow UInt64 0 (2 ^ 63)) ≠ .ok AB) ∧
      ∃ BC P, (hollow UInt64 0 (2 ^ 63)).mul (.ofEntryBytes overflow 8) .counting
          (hollow UInt64 (2 ^ 63) 0) = .ok BC ∧
        (hollow UInt64 3 0).mul (.ofEntryBytes overflow 8) .counting BC = .ok P := by
  refine ⟨rfl, rfl, fun overflow => ⟨fun AB => mul_hollow_ne_ok, ?_⟩⟩
  · have hA : (hollow UInt64 3 0).Whole (.ofEntryBytes overflow 8) :=
      whole_hollow (by decide) (by decide) rfl
    have hB : (hollow UInt64 0 (2 ^ 63)).Whole (.ofEntryBytes overflow 8) :=
      whole_hollow (by decide) (by decide) rfl
    have hC : (hollow UInt64 (2 ^ 63) 0).Whole (.ofEntryBytes overflow 8) :=
      whole_hollow (by decide) (by decide) rfl
    obtain ⟨BC, hBC, hwhole, hshape⟩ := hB.exists_mul_eq_ok hC rfl
      (.of_empty (by decide) (by decide) rfl) .counting
    -- the inner product has as many rows as the left factor has columns: none.
    obtain ⟨hrows, hcols⟩ := Shape.mk.inj hshape
    obtain ⟨P, hP, -, -⟩ := hA.exists_mul_eq_ok hwhole hrows.symm
      (hcols ▸ (.of_empty (by decide) (by decide) rfl)) .counting
    exact ⟨BC, P, hBC, hP⟩

end StoredMatrix

end PathSum
