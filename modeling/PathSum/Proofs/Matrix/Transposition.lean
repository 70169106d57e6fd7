import PathSum.Proofs.Matrix.Storage
import PathSum.Weights.FixedWidth

/-!
# Transposition

Transposition turns the rows of a matrix into columns. It goes through sums and Kronecker products
whatever the weights are, since these combine one entry with one entry. A product of matrices pairs
a row with a column and comes out in reverse order. Its entries are sums over the same inner index
in the same order, so all that is asked of the weights is that two factors may change places; sums
may round.

* `Matrix.transpose_mul`, `Matrix.vecMul_transpose`: products, over commutative factors.
* `Matrix.transpose_transpose`, `Matrix.transpose_kron`, `Matrix.transpose_add`: no law at all.
* `StoredMatrix.transpose_exact`: all of it for stored matrices, whose sizes and positions are
  computed. `StoredMatrix.transpose_too_large` shows where that ends.
-/

namespace PathSum

universe u

variable {α : Type u} {w : Weights α} {m n p q : Nat}

namespace Matrix

theorem transpose_transpose (A : Matrix α m n) : A.transpose.transpose = A := by
  apply ext_entry
  intro i j
  rw [entry_transpose, entry_transpose]

/-- The quotients and remainders of both indices change places together. -/
theorem transpose_kron (A : Matrix α m n) (B : Matrix α p q) :
    (A.kron w B).transpose = A.transpose.kron w B.transpose := by
  apply ext_entry
  intro i j
  simp only [entry_transpose, entry_kron]

theorem transpose_add (A B : Matrix α m n) :
    (A.add w B).transpose = A.transpose.add w B.transpose := by
  apply ext_entry
  intro i j
  simp only [entry_transpose, entry_add]

section
variable (comm : ∀ x y, w.mul x y = w.mul y x)
include comm

/-- The terms of an entry keep their order; only the two factors of each term change places. -/
theorem transpose_mul (A : Matrix α m n) (B : Matrix α n p) :
    (A.mul w B).transpose = B.transpose.mul w A.transpose := by
  apply ext_entry
  intro j i
  calc (A.mul w B).transpose.entry j i
      = w.sumOver n fun k => w.mul (A.entry i k) (B.entry k j) := by
        rw [entry_transpose, entry_mul]
    _ = w.sumOver n fun k => w.mul (B.entry k j) (A.entry i k) := by
        simp only [comm]
    _ = (B.transpose.mul w A.transpose).entry j i := by
        simp only [entry_mul, entry_transpose]

theorem vecMul_transpose (A : Matrix α m n) (v : Vector α n) :
    vecMul w v A.transpose = A.mulVec w v := by
  apply ext_get
  intro i
  rw [get_vecMul, get_mulVec]
  simp only [entry_transpose, comm]

end

end Matrix

/-! ## Stored matrices -/

namespace StoredMatrix

variable {α : Type} {w : Weights α} {machine : Machine}

/-- What is transposed is all there again. -/
theorem Whole.exists_transpose_eq_ok {A : StoredMatrix α} (hA : A.Whole machine) :
    ∃ At, A.transpose machine = .ok At ∧ At.Whole machine ∧ At.shape = ⟨A.cols, A.rows⟩ := by
  obtain ⟨m, n, A, hmn, rfl⟩ := hA.exists_matrix
  have hwhole : (AnyMatrix.of A.transpose).stored.Whole machine :=
    AnyMatrix.whole_stored hmn.symm
  exact ⟨_, Matrix.transpose_stored hmn A, hwhole, rfl⟩

/-- How transposition goes with the operations, for all stored matrices that are all there and whose
shapes go together. Everything in a law has a result, as long as the machine holds the shapes of all
matrices that the law speaks of and has room for the vectors that come out. -/
structure TransposeLaws (machine : Machine) (w : Weights α) : Prop where
  mul {A B : StoredMatrix α} : (∀ x y, w.mul x y = w.mul y x) → A.Whole machine → B.Whole machine →
    A.cols = B.rows → machine.Holds A.rows B.cols → ∃ At Bt P Pt,
      A.transpose machine = .ok At ∧ B.transpose machine = .ok Bt ∧ A.mul machine w B = .ok P ∧
        P.transpose machine = .ok Pt ∧ Bt.mul machine w At = .ok Pt
  mulVec {A : StoredMatrix α} {v : Array α} : (∀ x y, w.mul x y = w.mul y x) → A.Whole machine →
    v.size = A.cols → A.rows ≤ machine.capacity → ∃ At x,
      A.transpose machine = .ok At ∧ A.mulVec machine w v = .ok x ∧ vecMul machine w v At = .ok x
  transpose {A : StoredMatrix α} : A.Whole machine → ∃ At,
    A.transpose machine = .ok At ∧ At.transpose machine = .ok A
  kron {A B : StoredMatrix α} : A.Whole machine → B.Whole machine →
    machine.Holds (A.rows * B.rows) (A.cols * B.cols) → ∃ At Bt K Kt,
      A.transpose machine = .ok At ∧ B.transpose machine = .ok Bt ∧ A.kron machine w B = .ok K ∧
        K.transpose machine = .ok Kt ∧ At.kron machine w Bt = .ok Kt
  add {A B : StoredMatrix α} : A.Whole machine → B.Whole machine → A.shape = B.shape →
    ∃ At Bt S St,
      A.transpose machine = .ok At ∧ B.transpose machine = .ok Bt ∧ A.add w B = .ok S ∧
        S.transpose machine = .ok St ∧ At.add w Bt = .ok St

/-- **Transposition reverses products.** Over weights with commutative factors, the product of the
transposes in reverse order is the transpose of the product, and a matrix times a column is that
column, as a row, times the transpose. Whatever the weights are, transposing twice changes nothing,
and Kronecker products and sums are transposed factor by factor and term by term. No dimension has
to be positive, and it does not matter how the program is built. -/
theorem transpose_exact (machine : Machine) (w : Weights α) : TransposeLaws machine w where
  mul {A B} comm hA hB hinner hAB := by
    obtain ⟨m, n, A, hmn, rfl⟩ := hA.exists_matrix
    obtain ⟨_, p, B, hnp, rfl⟩ := hB.exists_matrix
    obtain rfl : n = _ := hinner
    rw [Matrix.rows_stored, Matrix.cols_stored] at hAB
    -- both products are made as they are, and one is the transpose of the other.
    refine ⟨_, _, _, _, Matrix.transpose_stored hmn A, Matrix.transpose_stored hnp B,
      Matrix.mul_stored hmn hnp hAB w A B, Matrix.transpose_stored hAB (A.mul w B), ?_⟩
    rw [Matrix.transpose_mul comm]
    exact Matrix.mul_stored hnp.symm hmn.symm hAB.symm w B.transpose A.transpose
  mulVec {A v} comm hA hv hroom := by
    obtain ⟨m, n, A, hmn, rfl⟩ := hA.exists_matrix
    rw [Matrix.cols_stored] at hv
    rw [Matrix.rows_stored] at hroom
    obtain ⟨v, rfl⟩ := AnyMatrix.exists_vector hv
    refine ⟨_, _, Matrix.transpose_stored hmn A, Matrix.mulVec_stored hmn hroom w A v, ?_⟩
    rw [← Matrix.vecMul_transpose comm]
    exact Matrix.vecMul_stored hmn.symm hroom w v A.transpose
  transpose {A} hA := by
    obtain ⟨m, n, A, hmn, rfl⟩ := hA.exists_matrix
    refine ⟨_, Matrix.transpose_stored hmn A, ?_⟩
    rw [Matrix.transpose_stored hmn.symm, Matrix.transpose_transpose]
  kron {A B} hA hB hAB := by
    obtain ⟨m, n, A, hmn, rfl⟩ := hA.exists_matrix
    obtain ⟨p, q, B, hpq, rfl⟩ := hB.exists_matrix
    simp only [Matrix.rows_stored, Matrix.cols_stored] at hAB
    refine ⟨_, _, _, _, Matrix.transpose_stored hmn A, Matrix.transpose_stored hpq B,
      Matrix.kron_stored hmn hpq hAB w A B, Matrix.transpose_stored hAB (A.kron w B), ?_⟩
    rw [Matrix.transpose_kron]
    exact Matrix.kron_stored hmn.symm hpq.symm hAB.symm w A.transpose B.transpose
  add {A B} hA hB hshape := by
    obtain ⟨m, n, A, hmn, rfl⟩ := hA.exists_matrix
    obtain ⟨_, _, B, -, rfl⟩ := hB.exists_matrix
    obtain ⟨rfl, rfl⟩ := Matrix.dims_eq_of_shape hshape
    refine ⟨_, _, _, _, Matrix.transpose_stored hmn A, Matrix.transpose_stored hmn B,
      A.add_stored w B, Matrix.transpose_stored hmn (A.add w B), ?_⟩
    rw [Matrix.transpose_add]
    exact A.transpose.add_stored w B.transpose

/-- Weights that no law holds of but that factors may change places: a sum counts its first term
double. -/
def lopsided : Weights Nat where
  zero := 1
  one := 0
  add a b := 2 * a + b
  mul a b := a * b + 1
  same := (· == ·)

/-- Entries that grow along the rows. -/
def numbered (m n : Nat) : StoredMatrix Nat :=
  (Matrix.ofFn fun (i : Fin m) (j : Fin n) => i.val * n + j.val).stored

/-- A product, a product over no index at all, and a column, over weights whose sums depend on the
order of their terms. -/
theorem transpose_exact_lopsided :
    (∀ x y, lopsided.mul x y = lopsided.mul y x) ∧
    (∃ At Bt P Pt, (numbered 2 3).transpose (.ofEntryBytes .wraps 8) = .ok At ∧
      (numbered 3 2).transpose (.ofEntryBytes .wraps 8) = .ok Bt ∧
      (numbered 2 3).mul (.ofEntryBytes .wraps 8) lopsided (numbered 3 2) = .ok P ∧
      P.transpose (.ofEntryBytes .wraps 8) = .ok Pt ∧
      Bt.mul (.ofEntryBytes .wraps 8) lopsided At = .ok Pt) ∧
    (∃ At Bt P Pt, (numbered 2 0).transpose (.ofEntryBytes .wraps 8) = .ok At ∧
      (numbered 0 3).transpose (.ofEntryBytes .wraps 8) = .ok Bt ∧
      (numbered 2 0).mul (.ofEntryBytes .wraps 8) lopsided (numbered 0 3) = .ok P ∧
      P.transpose (.ofEntryBytes .wraps 8) = .ok Pt ∧
      Bt.mul (.ofEntryBytes .wraps 8) lopsided At = .ok Pt) ∧
    ∃ At x, (numbered 2 3).transpose (.ofEntryBytes .wraps 8) = .ok At ∧
      (numbered 2 3).mulVec (.ofEntryBytes .wraps 8) lopsided #[4, 5, 6] = .ok x ∧
      vecMul (.ofEntryBytes .wraps 8) lopsided #[4, 5, 6] At = .ok x := by
  have comm (x y : Nat) : lopsided.mul x y = lopsided.mul y x :=
    congrArg (· + 1) (Nat.mul_comm x y)
  have hlaws := transpose_exact (.ofEntryBytes .wraps 8) lopsided
  have hnumbered {m n : Nat} (h : (Machine.ofEntryBytes .wraps 8).Holds m n) :
      (numbered m n).Whole (.ofEntryBytes .wraps 8) :=
    AnyMatrix.whole_stored
      (A := .of (Matrix.ofFn fun (i : Fin m) (j : Fin n) => i.val * n + j.val)) h
  have h23 := hnumbered (m := 2) (n := 3) (by decide)
  have h32 := hnumbered (m := 3) (n := 2) (by decide)
  have h20 := hnumbered (m := 2) (n := 0) (by decide)
  have h03 := hnumbered (m := 0) (n := 3) (by decide)
  refine ⟨comm, ?_, ?_, ?_⟩
  · exact hlaws.mul comm h23 h32 rfl (by decide)
  · exact hlaws.mul comm h20 h03 rfl (by decide)
  · exact hlaws.mulVec comm h23 rfl (by decide)

/-! ### Products that are too large -/

/-- Without data, the first entry that is asked for is not there. A shape with rows and columns asks
for one. -/
theorem transpose_ne_ok_of_no_data {A B : StoredMatrix α} (hrows : 0 < A.rows) (hcols : 0 < A.cols)
    (hdata : A.data = #[]) : A.transpose machine ≠ .ok B := by
  intro h
  obtain ⟨-, -, hrest⟩ := bind_eq_ok_iff.mp h
  obtain ⟨data, hloop, -⟩ := bind_eq_ok_iff.mp hrest
  have hread (i j : Nat) (x : α) : A.index machine i j ≠ .ok x := by
    intro hx
    unfold index at hx
    split at hx
    · obtain ⟨position, -, hread⟩ := bind_eq_ok_iff.mp hx
      rw [hdata] at hread
      exact nomatch hread
    · exact nomatch hx
  -- no step of the outer loop has a result, since none of the inner loop has one.
  have hnone : A.cols = 0 := by
    refine of_foldlM_eq_ok (P := fun i _ => i = 0) (fun data i data' _ hrow => ?_) rfl hloop
    have hinner : A.rows = 0 := by
      refine of_foldlM_eq_ok (P := fun j _ => j = 0) (fun data j data' _ hpush => ?_) rfl hrow
      obtain ⟨x, hx, -⟩ := map_eq_ok_iff.mp hpush
      exact absurd hx (hread j i x)
    exact absurd hinner (Nat.ne_of_gt hrows)
  exact absurd hnone (Nat.ne_of_gt hcols)

/-- To a program that reduces numbers, two dimensions whose product is `2 ^ 64` look like a shape
without entries, so there are none. -/
theorem zero_eq_ok_of_wraps (hmachine : machine.overflow = .wraps) {rows cols : Nat}
    (hsize : rows * cols = UInt64.size) :
    zero machine w rows cols = .ok (hollow α rows cols) := by
  have hentries : machine.entries rows cols = .ok 0 := by
    rw [Machine.entries_eq_ok_iff, Machine.word_of_wraps hmachine, hsize]
    exact ⟨rfl, Nat.zero_le _⟩
  rw [zero, filled, hentries]
  rfl

/-- **Where a product is too large, there is nothing to transpose.** Two matrices without entries go
together, but their product would have `3 * 2 ^ 63` entries. With `2 ^ 64` entries it is worse if
the program reduces numbers: there are products in both orders then, without any data, and the one
that has to be transposed cannot be. -/
theorem transpose_too_large :
    (hollow UInt64 3 0).cols = (hollow UInt64 0 (2 ^ 63)).rows ∧
    (∀ overflow P, (hollow UInt64 3 0).mul (.ofEntryBytes overflow 8) .counting
      (hollow UInt64 0 (2 ^ 63)) ≠ .ok P) ∧
    ∃ At Bt P R, (hollow UInt64 2 0).transpose (.ofEntryBytes .wraps 8) = .ok At ∧
      (hollow UInt64 0 (2 ^ 63)).transpose (.ofEntryBytes .wraps 8) = .ok Bt ∧
      (hollow UInt64 2 0).mul (.ofEntryBytes .wraps 8) .counting (hollow UInt64 0 (2 ^ 63)) =
        .ok P ∧
      Bt.mul (.ofEntryBytes .wraps 8) .counting At = .ok R ∧
      ∀ Pt, P.transpose (.ofEntryBytes .wraps 8) ≠ .ok Pt := by
  refine ⟨rfl, fun overflow P => mul_hollow_ne_ok, ?_⟩
  have hA : (hollow UInt64 2 0).Whole (.ofEntryBytes .wraps 8) :=
    whole_hollow (by decide) (by decide) rfl
  have hB : (hollow UInt64 0 (2 ^ 63)).Whole (.ofEntryBytes .wraps 8) :=
    whole_hollow (by decide) (by decide) rfl
  obtain ⟨At, hAt, -, hshapeA⟩ := hA.exists_transpose_eq_ok
  obtain ⟨Bt, hBt, -, hshapeB⟩ := hB.exists_transpose_eq_ok
  obtain ⟨hrowsA, hcolsA⟩ := Shape.mk.inj hshapeA
  obtain ⟨hrowsB, hcolsB⟩ := Shape.mk.inj hshapeB
  -- a product without inner index is a matrix of zeros, and to this machine it has no entries.
  have hP : (hollow UInt64 2 0).mul (.ofEntryBytes .wraps 8) .counting
      (hollow UInt64 0 (2 ^ 63)) = .ok (hollow UInt64 2 (2 ^ 63)) := by
    rw [mul_eq_zero_of_cols rfl rfl]
    exact zero_eq_ok_of_wraps rfl (by decide)
  have hR : Bt.mul (.ofEntryBytes .wraps 8) .counting At = .ok (hollow UInt64 (2 ^ 63) 2) := by
    rw [mul_eq_zero_of_cols hcolsB hrowsA, hrowsB, hcolsA]
    exact zero_eq_ok_of_wraps rfl (by decide)
  exact ⟨At, Bt, _, _, hAt, hBt, hP, hR,
    fun Pt => transpose_ne_ok_of_no_data (by decide) (by decide) rfl⟩

end StoredMatrix

end PathSum
