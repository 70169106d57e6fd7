import PathSum.AnyMatrix.Arithmetic
import PathSum.Loop

/-!
# Arithmetic without checks

The operations that a run repeats do not look at shapes. They read the entries that they need, one
after another, and an entry that is not there ends them. On operands that go together they are the
operations on matrices of known shape:

* `vecMulUnchecked_of`: a vector as long as the matrix has rows. A longer one needs a row that is
  not there, and a shorter one leaves rows out without a word.
* `mulUnchecked_of`: a matrix with as many columns as the other has rows. The result is added up in
  place, so its entries are followed through the three loops one by one.
* `scaleUnchecked_of`: a vector as long as the diagonal, or a shorter one.
* `dotUnchecked_toArray`: vectors of one length. Of others, the longer one is cut.
* `kronUnchecked_eq`: any matrices at all.
-/

namespace PathSum

universe u

variable {α : Type u} {m n : Nat}

/-! ## Entries that may not be there -/

/-- Where no entry is missing, the vector of all of them is made. -/
theorem ofFnM_eq_ok {ε : Type} {f : Fin n → Except ε α} {g : Fin n → α} (h : ∀ i, f i = .ok (g i)) :
    Vector.ofFnM f = .ok (Vector.ofFn g) := by
  obtain rfl : f = fun i => .ok (g i) := funext h
  exact Vector.ofFnM_pure

/-- The matrix of the entries, or the error of the first that there is none for. -/
def Matrix.tryOfFn {ε : Type} (f : Fin m → Fin n → Except ε α) : Except ε (Matrix α m n) :=
  (Vector.ofFnM fun p => f (Index.fst p) (Index.snd p)).map Matrix.mk

/-- And so is the matrix. -/
theorem Matrix.tryOfFn_eq_ok {ε : Type} {f : Fin m → Fin n → Except ε α} {g : Fin m → Fin n → α}
    (h : ∀ i j, f i j = .ok (g i j)) : tryOfFn f = .ok (ofFn g) := by
  rw [tryOfFn, ofFnM_eq_ok fun p => h (Index.fst p) (Index.snd p)]
  rfl

/-- An entry is followed through a loop if every step makes it from what it was before. -/
theorem Matrix.entry_foldl {p : Nat} {step : Matrix α m p → Fin n → Matrix α m p}
    (step' : α → Fin n → α) {r : Fin m} {c : Fin p}
    (h : ∀ M k, (step M k).entry r c = step' (M.entry r c) k) (M : Matrix α m p) :
    (Fin.foldl n step M).entry r c = Fin.foldl n step' (M.entry r c) :=
  foldl_seen (fun M => M.entry r c) step' h M

namespace AnyMatrix

/-- An entry within the shape is there. -/
theorem index_eq_ok {A : AnyMatrix α} {i j : Nat} (hi : i < A.rows) (hj : j < A.cols) :
    A.index i j = .ok (A.matrix.entry ⟨i, hi⟩ ⟨j, hj⟩) := by
  rw [index, get?, dif_pos ⟨hi, hj⟩]

/-! ## Vector times matrix -/

/-- Adds a multiple of row `i` to the sums. -/
def addRow (w : Weights α) (A : AnyMatrix α) (x : α) (i : Nat) (sums : Vector α A.cols) :
    Except OutOfRange (Vector α A.cols) :=
  Vector.ofFnM fun j => (A.index i j).map fun a => w.add (sums.get j) (w.mul x a)

/-- The sums of the multiples of the first `n` rows. -/
def addRows (w : Weights α) (A : AnyMatrix α) (n : Nat) (v : Fin n → α) :
    Except OutOfRange (Vector α A.cols) :=
  Fin.foldlM n (fun sums i => A.addRow w (v i) i sums) (Vector.replicate A.cols w.zero)

/-- Row vector times matrix, whatever the length of the vector. -/
def vecMulUnchecked (w : Weights α) (v : Array α) (A : AnyMatrix α) : Except OutOfRange (Array α) :=
  (A.addRows w v.size fun i => v[i]).map Vector.toArray

/-- The last row is added to the sums of those before it. -/
theorem addRows_succ (w : Weights α) (A : AnyMatrix α) (v : Fin (n + 1) → α) :
    A.addRows w (n + 1) v =
      (A.addRows w n fun i => v i.castSucc).bind (A.addRow w (v (Fin.last n)) n) := by
  rw [addRows, Fin.foldlM_succ_last]
  rfl

/-- Rows that are there give the sums. For each column the terms come in the order of the rows,
beginning from zero, as in a sum from the left. -/
theorem addRows_eq_ok (w : Weights α) (A : AnyMatrix α) (v : Fin n → α) (hn : n ≤ A.rows) :
    A.addRows w n v = .ok (Vector.ofFn fun j =>
      w.sumOver n fun i => w.mul (v i) (A.matrix.entry (i.castLE hn) j)) := by
  induction n with
  | zero =>
    have hzero : Vector.replicate A.cols w.zero = Vector.ofFn fun _ => w.zero := by
      apply ext_get
      simp
    rw [addRows, Fin.foldlM_zero, hzero]
    rfl
  | succ n ih =>
    rw [addRows_succ, ih _ (Nat.le_of_succ_le hn)]
    refine ofFnM_eq_ok fun j => ?_
    rw [index_eq_ok hn j.isLt, get_ofFn, w.sumOver_succ]
    rfl

/-- For a vector that is as long as there are rows, this is the product. -/
theorem vecMulUnchecked_of (w : Weights α) (v : Vector α m) (A : Matrix α m n) :
    vecMulUnchecked w v.toArray (of A) = .ok (Matrix.vecMul w v A).toArray := by
  obtain ⟨v, rfl⟩ := v
  have hsums := (of A).addRows_eq_ok w (fun i : Fin v.size => v[i]) (Nat.le_refl v.size)
  show ((of A).addRows w v.size fun i : Fin v.size => v[i]).map Vector.toArray = _
  rw [hsums]
  rfl

/-! ## Matrix times matrix -/

/-- Adds a multiple of row `k` of `B` to row `i` of what there is, entry by entry. -/
def addMultiple (w : Weights α) (B : AnyMatrix α) (x : α) (k : Nat) (i : Fin m)
    (sums : Matrix α m B.cols) : Except OutOfRange (Matrix α m B.cols) :=
  Fin.foldlM B.cols (fun sums j => (B.index k j).map fun b =>
    sums.set i j (w.add (sums.entry i j) (w.mul x b))) sums

/-- The multiples of the rows of `B` that belong to row `i` of the result. -/
def addMultiples (w : Weights α) (A B : AnyMatrix α) (i : Fin A.rows)
    (sums : Matrix α A.rows B.cols) : Except OutOfRange (Matrix α A.rows B.cols) :=
  Fin.foldlM A.cols (fun sums k => do
    let x ← A.index i k
    B.addMultiple w x k i sums) sums

/-- Matrix times matrix, whatever their shapes. All entries start at zero, and what belongs to them
is added in place. -/
def mulUnchecked (w : Weights α) (A B : AnyMatrix α) : Except OutOfRange (AnyMatrix α) :=
  (Fin.foldlM A.rows (fun sums i => A.addMultiples w B i sums) (.zero w A.rows B.cols)).map of

/-- Each entry of the row gets one more term. The loop goes through the columns, and what it did to
one entry is not touched again. -/
theorem addMultiple_eq_ok (w : Weights α) (B : AnyMatrix α) (x : α) {k : Nat} (hk : k < B.rows)
    (i : Fin m) (sums : Matrix α m B.cols) :
    B.addMultiple w x k i sums = .ok (.ofFn fun r c =>
      if r = i then w.add (sums.entry r c) (w.mul x (B.matrix.entry ⟨k, hk⟩ c))
      else sums.entry r c) := by
  have hsteps : B.addMultiple w x k i sums = .ok (Fin.foldl B.cols (fun sums j =>
      sums.set i j (w.add (sums.entry i j) (w.mul x (B.matrix.entry ⟨k, hk⟩ j)))) sums) := by
    refine foldlM_eq_ok (fun sums j => ?_) sums
    rw [index_eq_ok hk j.isLt]
    rfl
  rw [hsteps, Except.ok.injEq]
  apply Matrix.ext_entry
  intro r c
  -- the loop comes by each column once.
  rw [Matrix.entry_ofFn, Matrix.entry_foldl (fun y j => if j = c then
    (if r = i then w.add y (w.mul x (B.matrix.entry ⟨k, hk⟩ c)) else y) else y) fun sums j => ?_]
  · exact foldl_once c _ _
  · rw [Matrix.entry_set]
    by_cases hc : j = c
    · subst hc
      by_cases hr : r = i
      · subst hr
        simp
      · simp [hr]
    · simp [hc, Ne.symm hc]

/-- Each entry of the row gets its terms, one after another. The loop over the inner index is on the
outside here, so it is turned inside out: seen from one entry, it adds up one term after another. -/
theorem addMultiples_eq_ok (w : Weights α) (A B : AnyMatrix α) (h : A.cols ≤ B.rows)
    (i : Fin A.rows) (sums : Matrix α A.rows B.cols) :
    A.addMultiples w B i sums = .ok (.ofFn fun r c => Fin.foldl A.cols (fun total k =>
      if r = i then w.add total (w.mul (A.matrix.entry i k) (B.matrix.entry (k.castLE h) c))
      else total) (sums.entry r c)) := by
  -- no step misses an entry, so the loop is one over the matrix alone.
  have hsteps : A.addMultiples w B i sums = .ok (Fin.foldl A.cols (fun sums k =>
      .ofFn fun r c =>
        if r = i then
          w.add (sums.entry r c) (w.mul (A.matrix.entry i k) (B.matrix.entry (k.castLE h) c))
        else sums.entry r c) sums) := by
    refine foldlM_eq_ok (fun sums k => ?_) sums
    rw [index_eq_ok i.isLt k.isLt]
    exact B.addMultiple_eq_ok w _ (Nat.lt_of_lt_of_le k.isLt h) i sums
  -- such a loop can be followed in one entry.
  rw [hsteps, Except.ok.injEq]
  apply Matrix.ext_entry
  intro r c
  rw [Matrix.entry_ofFn]
  exact Matrix.entry_foldl _ (fun sums k => Matrix.entry_ofFn ..) sums

/-- Rows that are there give the sums. No entry is read that is not there, as long as the second
factor has at least as many rows as the first has columns. -/
theorem mulUnchecked_eq_ok (w : Weights α) (A B : AnyMatrix α) (h : A.cols ≤ B.rows) :
    A.mulUnchecked w B = .ok (of (.ofFn fun i j => w.sumOver A.cols fun k =>
      w.mul (A.matrix.entry i k) (B.matrix.entry (k.castLE h) j))) := by
  rw [mulUnchecked, foldlM_eq_ok fun sums i => A.addMultiples_eq_ok w B h i sums]
  show Except.ok (of _) = Except.ok (of _)
  congr 2
  apply Matrix.ext_entry
  intro r c
  -- the loop comes by each row once, and leaves the others as they are.
  rw [Matrix.entry_ofFn, Matrix.entry_foldl (fun y i => if i = r then
    Fin.foldl A.cols (fun total k =>
      w.add total (w.mul (A.matrix.entry r k) (B.matrix.entry (k.castLE h) c))) y else y)
    fun sums i => ?_]
  · rw [foldl_once r, Matrix.entry_zero]
    rfl
  · rw [Matrix.entry_ofFn]
    by_cases hr : i = r
    · subst hr
      simp
    · simp only [hr, Ne.symm hr, if_false, foldl_id]

/-- For shapes that go together, this is the product. -/
theorem mulUnchecked_of {p : Nat} (w : Weights α) (A : Matrix α m n) (B : Matrix α n p) :
    (of A).mulUnchecked w (of B) = .ok (of (A.mul w B)) :=
  (of A).mulUnchecked_eq_ok w (of B) (Nat.le_refl n)

/-! ## Products -/

/-- Each weight times the entry of the diagonal in its place. -/
def scaleUnchecked (w : Weights α) (v : Array α) (A : AnyMatrix α) :
    Except OutOfRange (Array α) :=
  (Vector.ofFnM fun i : Fin v.size => (A.index i i).map (w.mul v[i])).map Vector.toArray

/-- For a square matrix, no entry of the diagonal is missing, and each weight is multiplied by the
one of its own state. -/
theorem scaleUnchecked_of (w : Weights α) (v : Vector α n) (A : Matrix α n n) :
    scaleUnchecked w v.toArray (of A) =
      .ok (Vector.ofFn fun i => w.mul (v.get i) (A.entry i i)).toArray := by
  obtain ⟨v, rfl⟩ := v
  have hscaled : (Vector.ofFnM fun i : Fin v.size => ((of A).index i i).map (w.mul v[i])) =
      .ok (Vector.ofFn fun i : Fin v.size => w.mul v[i] (A.entry i i)) := by
    refine ofFnM_eq_ok fun i => ?_
    have hentry : (of A).index i i = .ok (A.entry i i) := index_eq_ok i.isLt i.isLt
    rw [hentry]
    rfl
  rw [scaleUnchecked, hscaled]
  rfl

/-- Kronecker product, with a quotient and a remainder for the place in each operand. -/
def kronUnchecked (w : Weights α) (A B : AnyMatrix α) : Except OutOfRange (AnyMatrix α) :=
  (Matrix.tryOfFn fun (i : Fin (A.rows * B.rows)) (j : Fin (A.cols * B.cols)) => do
    let a ← A.index (i / B.rows) (j / B.cols)
    let b ← B.index (i % B.rows) (j % B.cols)
    return w.mul a b).map of

/-- No entry is missing, whatever the shapes: the quotient of an index by a dimension is below the
other one, and the remainder is below that dimension. -/
theorem kronUnchecked_eq (w : Weights α) (A B : AnyMatrix α) :
    A.kronUnchecked w B = .ok (A.kron w B) := by
  rw [kronUnchecked, Matrix.tryOfFn_eq_ok fun i j => ?_]
  · rfl
  · -- the quotients and remainders are the two indices of a pair.
    have hleft : A.index (i / B.rows) (j / B.cols) = _ :=
      index_eq_ok (Index.fst i).isLt (Index.fst j).isLt
    have hright : B.index (i % B.rows) (j % B.cols) = _ :=
      index_eq_ok (Index.snd i).isLt (Index.snd j).isLt
    rw [hleft, hright]
    rfl

end AnyMatrix

namespace Weights

/-- The sum of the products of the entries that both arrays have. -/
def dotUnchecked (w : Weights α) (u v : Array α) : α :=
  w.sum (List.zipWith w.mul u.toList v.toList)

/-- For vectors of one length, this is their product. If one of them is longer, the rest of it is
left out without an error. -/
theorem dotUnchecked_toArray (w : Weights α) (u v : Vector α n) :
    w.dotUnchecked u.toArray v.toArray = w.dot u v := by
  have hterms : List.zipWith w.mul u.toArray.toList v.toArray.toList =
      List.ofFn fun i => w.mul (u.get i) (v.get i) := by
    apply List.ext_getElem
    · simp
    · intro i hi hi'
      simp [get_eq_getElem]
  rw [dotUnchecked, hterms, dot, sumOver_eq_sum]

theorem kronVecOf_toArray (w : Weights α) (u : Vector α m) (v : Vector α n) :
    w.kronVecOf u.toArray v.toArray = (w.kronVec u v).toArray := by
  obtain ⟨u, rfl⟩ := u
  obtain ⟨v, rfl⟩ := v
  rfl

end Weights

end PathSum
