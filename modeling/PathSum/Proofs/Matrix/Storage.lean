import Mathlib.Algebra.Group.Nat.Defs
import Mathlib.Data.List.OfFn
import PathSum.AnyMatrix.Stored
import PathSum.AnyMatrix.Wire
import PathSum.Result

/-!
# Operations on stored matrices

The operations on stored matrices do not know how many entries there are. On matrices of known shape
they do what the operations of known shape do: no entry is missing where one is read, and what comes
out is stored again. This needs that the machine holds the shapes of the operands and of the result,
so that every size and every position is computed as it is; it does not depend on how the program is
built.

* `Matrix.fromFn_eq_ok`: entries that are put into the data one after another come to stand in the
  order of the numbers of their places.
* `Matrix.mulUnchecked_stored`: the product that is added up in place, by one lemma for each loop.
* `Matrix.vecMul_stored`, `Matrix.mulVec_stored`: the products with a vector, one by whole rows that
  are added up, the other by whole rows that are summed up.
* `Matrix.add_stored`, `kron_stored`, `transpose_stored`, `mul_stored`: the other operations.
* `Matrix.pow_stored`, `Matrix.boundedStar_stored`: repeated products, for which one shape is
  enough. By these two, what is proved of powers and of sums of powers holds of stored matrices.
* `StoredMatrix.Whole.exists_mul_eq_ok`, `StoredMatrix.mul_ne_ok_of_large`: when there is a product,
  and when there is none although the shapes go together.
* `StoredMatrix.mul_eq_shape_error_iff`, `StoredMatrix.add_eq_error_iff`: which shapes do not go
  together, for all stored matrices, whether they have all their entries or not.
-/

namespace PathSum

variable {α β : Type} {m n p q : Nat} {machine : Machine}

/-! ## Loops -/

/-- If each step of a loop over indices goes through a map of what is carried and a map of the
errors, then so does the loop. -/
theorem finFoldlM_map_mapError {ε ε' γ δ : Type} {step : γ → Fin n → Except ε γ}
    {step' : δ → Fin n → Except ε' δ} {f : γ → δ} {err : ε → ε'}
    (through : ∀ c i, step' (f c) i = ((step c i).map f).mapError err) (c : γ) :
    Fin.foldlM n step' (f c) = ((Fin.foldlM n step c).map f).mapError err := by
  rw [Fin.foldlM_eq_foldlM_finRange, Fin.foldlM_eq_foldlM_finRange]
  exact foldlM_map_mapError through c (List.finRange n)

/-- Entries that are put at the end one after another follow what was there. -/
theorem foldl_push (g : Fin n → α) (data : Array α) :
    Fin.foldl n (fun data j => data.push (g j)) data = data ++ Array.ofFn g := by
  induction n with
  | zero => simp
  | succ n ih =>
    rw [Fin.foldl_succ_last, ih, Array.ofFn_succ, Array.append_push]
    rfl

/-- Arrays that are joined one after another hold what the arrays hold, one after another. -/
theorem toList_foldl_append (g : Fin m → Array α) :
    (Fin.foldl m (fun data i => data ++ g i) #[]).toList =
      (List.ofFn fun i => (g i).toList).flatten := by
  induction m with
  | zero => simp
  | succ m ih =>
    rw [Fin.foldl_succ_last, Array.toList_append, ih, List.ofFn_succ_last, List.flatten_append]
    simp

/-! ## Making matrices -/

namespace Matrix

/-- The entries come to stand in the order of the numbers of their places. The array is made for all
of them in advance, so that filling it never asks for more room. -/
theorem fromFn_eq_ok (hshape : machine.Holds m n) {f : Nat → Nat → Except MatrixFault α}
    {g : Fin m → Fin n → α} (h : ∀ (i : Fin m) (j : Fin n), f i j = .ok (g i j)) :
    StoredMatrix.fromFn machine m n f = .ok (ofFn g).stored := by
  have hpush (i : Fin m) (data : Array α) (j : Fin n) :
      (f i j).map data.push = .ok (data.push (g i j)) := by
    rw [h]
    rfl
  have hrow (data : Array α) (i : Fin m) :
      Fin.foldlM n (fun data j => (f i j).map data.push) data =
        .ok (data ++ Array.ofFn (g i)) := by
    rw [foldlM_eq_ok (hpush i), foldl_push]
  -- the rows one after another are all pairs of indices in the order of their numbers.
  have hdata : Fin.foldl m (fun data i => data ++ Array.ofFn (g i)) #[] =
      Array.ofFn fun p : Fin (m * n) => g (Index.fst p) (Index.snd p) := by
    apply Array.ext'
    rw [toList_foldl_append, Array.toList_ofFn, List.ofFn_mul]
    have hpair (i : Fin m) (j : Fin n) (h : (i : Nat) * n + j < m * n) :
        g (Index.fst ⟨i * n + j, h⟩) (Index.snd ⟨i * n + j, h⟩) = g i j := by
      show g (Index.fst (Index.pair i j)) (Index.snd (Index.pair i j)) = g i j
      rw [Index.fst_pair, Index.snd_pair]
    simp only [Array.toList_ofFn, hpair]
  rw [StoredMatrix.fromFn, hshape.entries_eq_ok, ok_bind, foldlM_eq_ok hrow, hdata]
  rfl

/-- The array has one entry for each place. It is made from the product of the dimensions, which the
machine computes as it is. -/
theorem filled_stored (hshape : machine.Holds m n) (x : α) :
    StoredMatrix.filled machine m n x = .ok (filled m n x).stored := by
  rw [StoredMatrix.filled, hshape.entries_eq_ok]
  rfl

theorem zero_stored (hshape : machine.Holds m n) (w : Weights α) :
    StoredMatrix.zero machine w m n = .ok (zero w m n).stored :=
  filled_stored hshape w.zero

theorem identity_stored (hshape : machine.Holds n n) (w : Weights α) :
    StoredMatrix.identity machine w n = .ok (identity w n).stored := by
  refine fromFn_eq_ok hshape fun i j => ?_
  simp only [Fin.ext_iff]

/-- Entries on the diagonal are read from the list of them, which is as long as the diagonal, so no
place on it is missing. -/
theorem diagonal_stored (hshape : machine.Holds n n) (w : Weights α) (d : Vector α n) :
    StoredMatrix.diagonal machine w d.toArray = .ok (diagonal w d).stored := by
  obtain ⟨d, rfl⟩ := d
  refine fromFn_eq_ok hshape fun i j => ?_
  by_cases h : i = j
  · subst h
    rw [if_pos rfl, if_pos rfl, Array.getElem?_eq_getElem i.isLt]
    rfl
  · rw [if_neg fun hval => h (Fin.ext hval), if_neg h]

/-! ## Entries in range -/

/-- Entries are read where they are, whatever machine holds the matrix: no position is too large to
be computed. -/
theorem index_stored (hA : machine.Holds m n) (A : Matrix α m n) (i : Fin m) (j : Fin n) :
    A.stored.index machine i j = .ok (A.entry i j) := by
  have hindex : (AnyMatrix.of A).stored.index machine i j = _ :=
    AnyMatrix.index_stored (A := .of A) hA i j
  rw [AnyMatrix.index_eq_ok (A := .of A) i.isLt j.isLt] at hindex
  exact hindex

/-- Entries are written where they are, and nothing else changes. The array that is written to has
the entries of the old matrix but for one. -/
theorem set_stored (hA : machine.Holds m n) (A : Matrix α m n) (i : Fin m) (j : Fin n) (x : α) :
    A.stored.set machine i j x = .ok (A.set i j x).stored := by
  have hset : (AnyMatrix.of A).set i j x = .ok (.of (A.set i j x)) :=
    dif_pos (⟨i.isLt, j.isLt⟩ : i.val < (AnyMatrix.of A).rows ∧ j.val < (AnyMatrix.of A).cols)
  have hstored : (AnyMatrix.of A).stored.set machine i j x = _ :=
    AnyMatrix.set_stored (A := .of A) hA i j x
  rw [hset] at hstored
  exact hstored

/-! ## Products of matrices

What is added up in the data is what is added up in the matrix, loop by loop. -/

section
variable {A B : AnyMatrix α}

/-- The inner loop: one row of the result, and one row of the second factor. A read that misses ends
both loops at the same place, with the same error. -/
theorem addMultiple_stored (hB : machine.Holds B.rows B.cols) (hsums : machine.Holds m B.cols)
    (w : Weights α) (a : α) (k : Nat) (i : Fin m) (sums : Matrix α m B.cols) :
    B.stored.addMultiple machine w a k i sums.stored =
      ((B.addMultiple w a k i sums).map stored).mapError .outOfRange := by
  refine finFoldlM_map_mapError (n := B.cols) (fun sums j => ?_) sums
  rw [AnyMatrix.index_stored hB, index_stored hsums]
  cases B.index k j with
  | error e => rfl
  | ok b => exact set_stored hsums sums i j _

/-- The middle loop: one row of the result, and all rows of the second factor. Each round reads one
entry of the first factor and then goes through the inner loop. -/
theorem addMultiples_stored (hA : machine.Holds A.rows A.cols) (hB : machine.Holds B.rows B.cols)
    (hsums : machine.Holds A.rows B.cols) (w : Weights α) (sums : Matrix α A.rows B.cols)
    (i : Fin A.rows) :
    A.stored.addMultiples machine w B.stored i sums.stored =
      ((A.addMultiples w B i sums).map stored).mapError .outOfRange := by
  refine finFoldlM_map_mapError (n := A.cols) (fun sums k => ?_) sums
  rw [AnyMatrix.index_stored hA]
  cases A.index i k with
  | error e => rfl
  | ok a => exact addMultiple_stored hB hsums w a k i sums

end

/-- **If there are enough rows, then no read or write misses.** The three loops over the data go
through those over the entries, and these end with the product. -/
theorem mulUnchecked_stored (hA : machine.Holds m n) (hB : machine.Holds n p)
    (hAB : machine.Holds m p) (w : Weights α) (A : Matrix α m n) (B : Matrix α n p) :
    A.stored.mulUnchecked machine w B.stored = .ok (A.mul w B).stored := by
  have hloop : Fin.foldlM m (fun sums i => A.stored.addMultiples machine w B.stored i sums)
      (zero w m p).stored =
      ((Fin.foldlM m (fun sums i => AnyMatrix.addMultiples w (.of A) (.of B) i sums)
        (zero w m p)).map stored).mapError .outOfRange := by
    refine finFoldlM_map_mapError (n := m) (f := stored) (fun sums i => ?_) (zero w m p)
    exact addMultiples_stored (A := .of A) (B := .of B) hA hB hAB w sums i
  -- what the loop over matrices of known shape ends with is known already.
  have hmul := AnyMatrix.mulUnchecked_of w A B
  rw [AnyMatrix.mulUnchecked] at hmul
  obtain ⟨sums, hsums, hof⟩ := map_eq_ok_iff.mp hmul
  obtain rfl : sums = A.mul w B := eq_of_heq (AnyMatrix.mk.inj hof).2.2
  have hzero : StoredMatrix.zero machine w A.stored.rows B.stored.cols = .ok (zero w m p).stored :=
    zero_stored hAB w
  rw [StoredMatrix.mulUnchecked, hzero, ok_bind]
  refine hloop.trans ?_
  have hsums' : Fin.foldlM m (fun sums i => AnyMatrix.addMultiples w (.of A) (.of B) i sums)
      (zero w m p) = .ok (A.mul w B) := hsums
  rw [hsums']
  rfl

/-! ## Products with a vector -/

/-- After some rows, the sum for a column holds the terms of those rows. The induction is on how
many rows there were. -/
theorem addRows_stored (hA : machine.Holds m n) (w : Weights α) (A : Matrix α m n) {k : Nat}
    (hk : k ≤ m) (v : Fin k → α) :
    Fin.foldlM k (fun sums i => A.stored.addRow machine w (v i) i sums)
        (Vector.replicate n w.zero) =
      .ok (Vector.ofFn fun j =>
        w.sumOver k fun i => w.mul (v i) (A.entry (i.castLE hk) j)) := by
  induction k with
  | zero =>
    have hzero : Vector.replicate n w.zero = Vector.ofFn fun _ => w.zero := by
      apply ext_get
      simp
    rw [Fin.foldlM_zero, hzero]
    rfl
  | succ k ih =>
    have hbefore := ih (Nat.le_of_succ_le hk) fun i => v i.castSucc
    rw [Fin.foldlM_succ_last]
    refine (congrArg (· >>= _) hbefore).trans ?_
    -- the last row adds its term to each of the sums before it.
    refine ofFnM_eq_ok fun j => ?_
    have hentry : A.stored.index machine k j = .ok (A.entry ⟨k, hk⟩ j) :=
      index_stored hA A ⟨k, hk⟩ j
    show (A.stored.index machine k j).map _ = _
    rw [hentry, get_ofFn, w.sumOver_succ]
    rfl

/-- A vector that is as long as the matrix has rows, and an array for the sums. There may be sums
without a row, so that the array is asked for although the matrix has no entries. -/
theorem vecMul_stored (hA : machine.Holds m n) (hn : n ≤ machine.capacity) (w : Weights α)
    (v : Vector α m) (A : Matrix α m n) :
    StoredMatrix.vecMul machine w v.toArray A.stored = .ok (vecMul w v A).toArray := by
  obtain ⟨v, rfl⟩ := v
  have hsums := addRows_stored hA w A (Nat.le_refl v.size) fun i => v[i]
  have hlength : v.size = A.stored.rows := rfl
  have hroom : Machine.request machine.capacity A.stored.cols = .ok () := Machine.request_eq_ok hn
  rw [StoredMatrix.vecMul, if_pos hlength, hroom, ok_bind]
  exact congrArg (· >>= fun sums => Except.ok sums.toArray) hsums

/-- A vector that is as long as the matrix has columns, and an array for the sums. Each row is cut
out of the data as a whole. -/
theorem mulVec_stored (hA : machine.Holds m n) (hm : m ≤ machine.capacity) (w : Weights α)
    (A : Matrix α m n) (v : Vector α n) :
    A.stored.mulVec machine w v.toArray = .ok (A.mulVec w v).toArray := by
  have hrow : (fun i : Fin m =>
      (A.stored.row machine i).map fun row => w.dotUnchecked row.toArray v.toArray) =
      fun i => pure (w.dot (A.row i) v) := by
    funext i
    have hentries : A.stored.row machine i = .ok (List.ofFn (A.entry i)) :=
      AnyMatrix.row_stored_of_lt (A := .of A) hA i
    rw [hentries, ← A.toList_row, ← w.dotUnchecked_toArray]
    rfl
  have hsums : (List.finRange m).mapM (fun i : Fin m =>
      (A.stored.row machine i).map fun row => w.dotUnchecked row.toArray v.toArray) =
      .ok ((List.finRange m).map fun i => w.dot (A.row i) v) := by
    rw [hrow]
    exact List.mapM_pure
  have hvalues : ((List.finRange m).map fun i => w.dot (A.row i) v).toArray =
      (A.mulVec w v).toArray := by
    rw [Matrix.mulVec, Vector.toArray_ofFn, ← List.toArray_ofFn, List.finRange, List.map_ofFn]
    rfl
  have hlength : v.toArray.size = A.stored.cols := v.size_toArray
  have hroom : Machine.request machine.capacity A.stored.rows = .ok () := Machine.request_eq_ok hm
  rw [StoredMatrix.mulVec, if_pos hlength, hroom, ok_bind]
  refine (congrArg (· >>= fun sums => Except.ok sums.toArray) hsums).trans ?_
  exact congrArg Except.ok hvalues

/-! ## Entries in another order -/

/-- Shapes are those that the types say. -/
theorem dims_eq_of_shape {A : Matrix α m n} {B : Matrix α p q}
    (h : A.stored.shape = B.stored.shape) : m = p ∧ n = q :=
  Shape.mk.inj h

theorem map_stored (f : α → β) (A : Matrix α m n) : A.stored.map f = (A.map f).stored := rfl

/-- Sums look at shapes alone, and never at sizes: the two arrays are combined entry by entry. -/
theorem add_stored (w : Weights α) (A B : Matrix α m n) :
    A.stored.add w B.stored = .ok (A.add w B).stored := by
  have hshape : A.stored.shape = B.stored.shape := rfl
  rw [StoredMatrix.add, if_pos hshape]
  rfl

/-- The rows of the result are held where the columns of the operand are, and the other way. -/
theorem transpose_stored (hA : machine.Holds m n) (A : Matrix α m n) :
    A.stored.transpose machine = .ok A.transpose.stored :=
  fromFn_eq_ok hA.symm fun i j => index_stored hA A j i

/-- The product of the two shapes has to be held as well. This does not follow: two shapes that are
held may have a product that no array is large enough for. -/
theorem kron_stored (hA : machine.Holds m n) (hB : machine.Holds p q)
    (hAB : machine.Holds (m * p) (n * q)) (w : Weights α) (A : Matrix α m n) (B : Matrix α p q) :
    A.stored.kron machine w B.stored = .ok (A.kron w B).stored := by
  have hrows : machine.word (A.stored.rows * B.stored.rows) = .ok (m * p) :=
    Machine.word_of_lt hAB.rows_lt
  have hcols : machine.word (A.stored.cols * B.stored.cols) = .ok (n * q) :=
    Machine.word_of_lt hAB.cols_lt
  rw [StoredMatrix.kron, hrows, ok_bind, hcols, ok_bind]
  refine fromFn_eq_ok hAB fun i j => ?_
  -- the quotients and remainders are the two indices of a pair.
  have hleft : A.stored.index machine (i / B.stored.rows) (j / B.stored.cols) = _ :=
    index_stored hA A (Index.fst i) (Index.fst j)
  have hright : B.stored.index machine (i % B.stored.rows) (j % B.stored.cols) = _ :=
    index_stored hB B (Index.snd i) (Index.snd j)
  rw [hleft, ok_bind, hright]
  rfl

/-- The shape of the product has to be held as well. It is not where both factors are without
entries and the product is not. -/
theorem mul_stored (hA : machine.Holds m n) (hB : machine.Holds n p) (hAB : machine.Holds m p)
    (w : Weights α) (A : Matrix α m n) (B : Matrix α n p) :
    A.stored.mul machine w B.stored = .ok (A.mul w B).stored := by
  have hinner : A.stored.cols = B.stored.rows := rfl
  rw [StoredMatrix.mul, if_pos hinner]
  exact mulUnchecked_stored hA hB hAB w A B

/-! ## Repeated products

One shape is enough for all powers of a square matrix. -/

section
variable (hn : machine.Holds n n) (w : Weights α)
include hn

/-- The loop of repeated squaring, from any accumulator and any base. All matrices in it have one
shape, which the machine holds. -/
theorem mulPow_stored (acc base : Matrix α n n) (k : Nat) :
    StoredMatrix.mulPow machine w acc.stored base.stored k = .ok (mulPow w acc base k).stored := by
  induction k using Nat.strongRecOn generalizing acc base with
  | ind k ih =>
    rw [StoredMatrix.mulPow, mulPow]
    split
    · rfl
    · next hpos =>
      -- what comes after the factor that an odd `k` takes out.
      have hrest (acc : Matrix α n n) :
          (if k / 2 = 0 then Except.ok acc.stored
            else StoredMatrix.mulPow machine w acc.stored (base.mul w base).stored (k / 2)) =
          .ok (if k / 2 = 0 then acc else mulPow w acc (base.mul w base) (k / 2)).stored := by
        split
        · rfl
        · exact ih (k / 2) (Nat.div_lt_self (Nat.pos_of_ne_zero hpos) Nat.one_lt_two) _ _
      have hsquare := mulUnchecked_stored hn hn hn w base base
      by_cases hodd : k % 2 = 1
      · have hfactor := mulUnchecked_stored hn hn hn w acc base
        simp only [if_pos hodd, hfactor, hsquare, ok_bind]
        exact hrest (acc.mul w base)
      · simp only [if_neg hodd, hsquare, ok_bind]
        exact hrest acc

/-- Powers of a square matrix have its shape, so nothing more has to be held. -/
theorem pow_stored (A : Matrix α n n) (k : Nat) :
    A.stored.pow machine w k = .ok (A.pow w k).stored := by
  have hsquare : A.stored.rows = A.stored.cols := rfl
  have hidentity : StoredMatrix.identity machine w A.stored.rows = .ok (identity w n).stored :=
    identity_stored hn w
  rw [StoredMatrix.pow, if_pos hsquare, hidentity, ok_bind]
  exact mulPow_stored hn w (.identity w n) A k

/-- The loop that adds up powers, from any total and any power. -/
theorem addPowers_stored (A : Matrix α n n) (steps : Nat) (total power : Matrix α n n) :
    A.stored.addPowers machine w steps total.stored power.stored =
      .ok (A.addPowers w steps total power).stored := by
  induction steps generalizing total power with
  | zero => rfl
  | succ steps ih =>
    rw [StoredMatrix.addPowers, mulUnchecked_stored hn hn hn, ok_bind, add_stored, ok_bind]
    exact ih (total.add w (power.mul w A)) (power.mul w A)

/-- And so do sums of powers. -/
theorem boundedStar_stored (A : Matrix α n n) (len : Nat) :
    A.stored.boundedStar machine w len = .ok (A.boundedStar w len).stored := by
  have hsquare : A.stored.rows = A.stored.cols := rfl
  have hidentity : StoredMatrix.identity machine w A.stored.rows = .ok (identity w n).stored :=
    identity_stored hn w
  rw [StoredMatrix.boundedStar, if_pos hsquare, hidentity, ok_bind]
  exact addPowers_stored hn w A len (.identity w n) (.identity w n)

end

end Matrix

/-- With fewer entries than 64 bits can count, no overflow is taken for a number of entries. So it
does not matter that the product is cut off at the largest number. -/
theorem AnyMatrix.ofData_stored (rows cols : Nat) {data : Array α}
    (h : data.size < UInt64.size - 1) :
    StoredMatrix.ofData rows cols data = (ofData rows cols data).map stored := by
  have hsize : StoredMatrix.expectedSize rows cols = min (rows * cols) (UInt64.size - 1) := by
    rw [StoredMatrix.expectedSize]
    split <;> omega
  rw [StoredMatrix.ofData, ofData, hsize]
  by_cases hdata : data.size = rows * cols
  · rw [dif_pos hdata, if_pos (by omega)]
    rfl
  · rw [dif_neg hdata, if_neg (by omega)]
    rfl

/-! ## Shapes that do not go together

Only the check of shapes ever reports shapes. What goes wrong after it, in a matrix that does not
have all its entries or in a product that is too large, is another fault. -/

/-- The fault is not about shapes. -/
def MatrixFault.NotShape (fault : MatrixFault) : Prop :=
  ∀ e, fault ≠ .shape e

/-- A number that cannot be computed is not a matter of shapes. So a product that reports shapes was
refused before it computed anything. -/
theorem Machine.notShape_of_word {k : Nat} {fault : MatrixFault}
    (h : machine.word k = .error fault) : fault.NotShape := by
  unfold word at h
  split at h
  · exact nomatch h
  · split at h
    · exact nomatch h
    · cases h
      exact nofun

/-- Nor is an array that cannot be made. -/
theorem Machine.notShape_of_entries {rows cols : Nat} {fault : MatrixFault}
    (h : machine.entries rows cols = .error fault) : fault.NotShape := by
  obtain hword | ⟨size, -, hrest⟩ := bind_eq_error_iff.mp h
  · exact notShape_of_word hword
  · obtain hroom | ⟨-, -, hsize⟩ := bind_eq_error_iff.mp hrest
    · unfold request at hroom
      split at hroom
      · exact nomatch hroom
      · cases hroom
        exact nofun
    · exact nomatch hsize

namespace StoredMatrix

variable {w : Weights α} {A B : StoredMatrix α} {fault : MatrixFault} {i j k : Nat}

/-- A read fails because of its position: the position cannot be computed, or there is nothing at
it. -/
theorem notShape_of_index (h : A.index machine i j = .error fault) : fault.NotShape := by
  unfold index at h
  split at h
  · obtain hword | ⟨position, -, hread⟩ := bind_eq_error_iff.mp h
    · exact Machine.notShape_of_word hword
    · split at hread
      · exact nomatch hread
      · cases hread
        exact nofun
  · cases h
    exact nofun

/-- So does a write. -/
theorem notShape_of_set {x : α} (h : A.set machine i j x = .error fault) : fault.NotShape := by
  unfold set at h
  split at h
  · obtain hword | ⟨position, -, hwrite⟩ := bind_eq_error_iff.mp h
    · exact Machine.notShape_of_word hword
    · split at hwrite
      · exact nomatch hwrite
      · cases hwrite
        exact nofun
  · cases h
    exact nofun

/-- An array that is filled fails because of its size. -/
theorem notShape_of_filled {rows cols : Nat} {x : α}
    (h : filled machine rows cols x = .error fault) : fault.NotShape := by
  obtain hentries | ⟨size, -, hfill⟩ := bind_eq_error_iff.mp h
  · exact Machine.notShape_of_entries hentries
  · exact nomatch hfill

/-- The loops of a product only read and write, so they fail for no other reason. -/
theorem notShape_of_addMultiple {a : α} {sums : StoredMatrix α}
    (h : B.addMultiple machine w a k i sums = .error fault) : fault.NotShape := by
  refine of_foldlM_eq_error (fun sums j e hstep => ?_) h
  obtain hread | ⟨b, -, hrest⟩ := bind_eq_error_iff.mp hstep
  · exact notShape_of_index hread
  · obtain hsum | ⟨sum, -, hset⟩ := bind_eq_error_iff.mp hrest
    · exact notShape_of_index hsum
    · exact notShape_of_set hset

theorem notShape_of_addMultiples {sums : StoredMatrix α}
    (h : A.addMultiples machine w B i sums = .error fault) : fault.NotShape := by
  refine of_foldlM_eq_error (fun sums k e hstep => ?_) h
  obtain hread | ⟨a, -, hrest⟩ := bind_eq_error_iff.mp hstep
  · exact notShape_of_index hread
  · exact notShape_of_addMultiple hrest

/-- What can go wrong in a product after its shapes were checked is never reported as a matter of
shapes. -/
theorem notShape_of_mulUnchecked (h : A.mulUnchecked machine w B = .error fault) :
    fault.NotShape := by
  obtain hzero | ⟨sums, -, hloop⟩ := bind_eq_error_iff.mp h
  · exact notShape_of_filled hzero
  · exact of_foldlM_eq_error (fun sums i e hstep => notShape_of_addMultiples hstep) hloop

/-- Shapes are reported by a product if and only if the left columns are not as many as the right
rows, and then both shapes are. -/
theorem mul_eq_shape_error_iff {e : ShapeError} :
    A.mul machine w B = .error (.shape e) ↔
      A.cols ≠ B.rows ∧ e = .mulMismatch A.shape B.shape := by
  unfold mul
  split
  · next hinner =>
    constructor
    · intro h
      exact absurd rfl (notShape_of_mulUnchecked h e)
    · rintro ⟨hne, -⟩
      exact absurd hinner hne
  · next hne =>
    constructor
    · intro h
      cases h
      exact ⟨hne, rfl⟩
    · rintro ⟨-, rfl⟩
      rfl

/-- A sum fails if and only if the shapes differ, and then both are reported. It asks for no size,
so nothing else can go wrong. -/
theorem add_eq_error_iff :
    A.add w B = .error fault ↔
      A.shape ≠ B.shape ∧ fault = .shape (.addMismatch A.shape B.shape) := by
  unfold add
  split
  · next hshape =>
    exact ⟨nofun, fun h => absurd hshape h.1⟩
  · next hne =>
    constructor
    · intro h
      cases h
      exact ⟨hne, rfl⟩
    · rintro ⟨-, rfl⟩
      rfl

/-! ## Products that there are, and products that are too large -/

/-- A matrix that is all there is a matrix of its dimensions, stored. -/
theorem Whole.exists_matrix (h : A.Whole machine) :
    ∃ (m n : Nat) (M : Matrix α m n), machine.Holds m n ∧ M.stored = A := by
  obtain ⟨T, hT, rfl⟩ := h.exists_stored
  exact ⟨T.rows, T.cols, T.matrix, hT, rfl⟩

/-- Shapes that go together have a product if its shape is held, and the product is all there. This
is where whole matrices stand for all that a program can make: the lemmas above then speak of their
entries. -/
theorem Whole.exists_mul_eq_ok (hA : A.Whole machine) (hB : B.Whole machine)
    (hinner : A.cols = B.rows) (hAB : machine.Holds A.rows B.cols) (w : Weights α) :
    ∃ P, A.mul machine w B = .ok P ∧ P.Whole machine ∧ P.shape = ⟨A.rows, B.cols⟩ := by
  obtain ⟨m, n, A, hmn, rfl⟩ := hA.exists_matrix
  obtain ⟨_, p, B, hnp, rfl⟩ := hB.exists_matrix
  obtain rfl : n = _ := hinner
  rw [Matrix.rows_stored, Matrix.cols_stored] at hAB
  have hwhole : (AnyMatrix.of (A.mul w B)).stored.Whole machine := AnyMatrix.whole_stored hAB
  exact ⟨_, Matrix.mul_stored hmn hnp hAB w A B, hwhole, rfl⟩

/-- Kronecker products go together whatever the shapes are. The shape that comes out has to be
held. -/
theorem Whole.exists_kron_eq_ok (hA : A.Whole machine) (hB : B.Whole machine)
    (hAB : machine.Holds (A.rows * B.rows) (A.cols * B.cols)) (w : Weights α) :
    ∃ P, A.kron machine w B = .ok P ∧ P.Whole machine ∧
      P.shape = ⟨A.rows * B.rows, A.cols * B.cols⟩ := by
  obtain ⟨m, n, A, hmn, rfl⟩ := hA.exists_matrix
  obtain ⟨p, q, B, hpq, rfl⟩ := hB.exists_matrix
  simp only [Matrix.rows_stored, Matrix.cols_stored] at hAB
  have hwhole : (AnyMatrix.of (A.kron w B)).stored.Whole machine := AnyMatrix.whole_stored hAB
  exact ⟨_, Matrix.kron_stored hmn hpq hAB w A B, hwhole, rfl⟩

/-- If what the product of the dimensions of the result comes to is more than any array has, then
there is no product, although the shapes go together. -/
theorem mul_ne_ok_of_large (hlarge : machine.capacity < A.rows * B.cols % UInt64.size)
    {C : StoredMatrix α} : A.mul machine w B ≠ .ok C := by
  intro h
  unfold mul at h
  split at h
  · obtain ⟨sums, hzero, -⟩ := bind_eq_ok_iff.mp h
    obtain ⟨size, hentries, -⟩ := bind_eq_ok_iff.mp hzero
    exact Machine.entries_ne_ok hlarge hentries
  · exact nomatch h

/-! ### Matrices without entries

They have room for any dimension beside a zero, so they are where sizes get too large first. -/

/-- A matrix without entries. It takes no room, so its dimensions may be any numbers of 64 bits
whose product is zero. -/
def hollow (α : Type) (rows cols : Nat) : StoredMatrix α :=
  ⟨rows, cols, #[]⟩

/-- Without entries there is nothing that could be missing, and nothing to make room for. -/
theorem whole_hollow {α : Type} {machine : Machine} {rows cols : Nat} (hrows : rows < UInt64.size)
    (hcols : cols < UInt64.size) (hempty : rows * cols = 0) :
    (hollow α rows cols).Whole machine where
  holds := .of_empty hrows hcols hempty
  size_data := hempty.symm

/-- Without an index between the factors, nothing is added to the zeros. What the machine makes of
the size of the zeros is then what it makes of the product. -/
theorem mul_eq_zero_of_cols (hcols : A.cols = 0) (hrows : B.rows = 0) :
    A.mul machine w B = zero machine w A.rows B.cols := by
  have hstep (sums : StoredMatrix α) (i : Fin A.rows) :
      A.addMultiples machine w B i sums = .ok sums := by
    obtain ⟨rows, cols, data⟩ := A
    obtain rfl : cols = 0 := hcols
    simp only [addMultiples, Fin.foldlM_zero]
    rfl
  have hloop (sums : StoredMatrix α) :
      Fin.foldlM A.rows (fun sums i => A.addMultiples machine w B i sums) sums = .ok sums := by
    rw [foldlM_eq_ok hstep, foldl_id]
  rw [mul, if_pos (hcols.trans hrows.symm), mulUnchecked]
  cases zero machine w A.rows B.cols with
  | error e => rfl
  | ok sums => exact hloop sums

/-- Three rows and `2 ^ 63` columns are too much for entries of eight bytes, however the program is
built: one build stops at the product, the other when it asks for the array. -/
theorem mul_hollow_ne_ok {overflow : Overflow} {C : StoredMatrix α} :
    (hollow α 3 0).mul (.ofEntryBytes overflow 8) w (hollow α 0 (2 ^ 63)) ≠ .ok C := by
  have hlarge : (UInt64.size / 2 - 1) / 8 < 3 * 2 ^ 63 % UInt64.size := by decide
  exact mul_ne_ok_of_large hlarge

end StoredMatrix

end PathSum
