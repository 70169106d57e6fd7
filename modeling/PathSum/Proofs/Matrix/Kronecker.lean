import PathSum.Proofs.Matrix.Storage
import PathSum.Proofs.Weights.Sums
import PathSum.Weights.FixedWidth

/-!
# Products of Kronecker products

Over commutative weights the Kronecker products of vectors and matrices are multiplied factor by
factor. An entry of a product of Kronecker products sums over pairs of indices, and that sum is the
product of the two sums over single indices. Where there are no indices, both sides are zero or have
no entries at all.

* `Matrix.mul_kron`, `Matrix.vecMul_kron`, `Matrix.mulVec_kron`, `dot_kronVec`: the four products.
* `Weights.toList_kronVecOf`: a product of vectors lists the pairs block by block, which is the
  numbering that the matrices go by.
* `kronVec_assoc`, `Matrix.kron_assoc`: three factors give the same numbers to the same triples,
  whichever two are multiplied first. This needs no law but that of the three weights.
* `StoredMatrix.kron_exact`: all of it for stored matrices, whose sizes and positions are computed.
  `StoredMatrix.kron_factors_too_large` shows that the two sides need not both exist.
-/

namespace PathSum

universe u

variable {α : Type u} {w : Weights α} {m n p q r s : Nat}

/-! ## Factor by factor -/

@[simp]
theorem get_kronVec (u : Vector α m) (v : Vector α n) (i : Fin (m * n)) :
    (w.kronVec u v).get i = w.mul (u.get (Index.fst i)) (v.get (Index.snd i)) :=
  get_ofFn ..

theorem get_kronVec_pair (u : Vector α m) (v : Vector α n) (i : Fin m) (j : Fin n) :
    (w.kronVec u v).get (Index.pair i j) = w.mul (u.get i) (v.get j) := by
  rw [get_kronVec, Index.fst_pair, Index.snd_pair]

theorem getElem?_kronVec_pair (u : Vector α m) (v : Vector α n) (i : Fin m) (j : Fin n) :
    (w.kronVec u v)[i.val * n + j.val]? = some (w.mul (u.get i) (v.get j)) := by
  rw [Vector.getElem?_eq_getElem (Index.pair_lt i j), ← get_kronVec_pair]
  rfl

theorem dot_kronVec (laws : w.CommSemiringLaws) (u x : Vector α m) (v y : Vector α n) :
    w.dot (w.kronVec u v) (w.kronVec x y) = w.mul (w.dot u x) (w.dot v y) := by
  simp only [Weights.dot, get_kronVec]
  exact laws.sumOver_mul_sumOver u.get x.get v.get y.get

namespace Matrix

/-- **The mixed product.** Kronecker products are multiplied factor by factor. -/
theorem mul_kron (laws : w.CommSemiringLaws) (A : Matrix α m n) (B : Matrix α p q)
    (C : Matrix α n r) (D : Matrix α q s) :
    (A.kron w B).mul w (C.kron w D) = (A.mul w C).kron w (B.mul w D) := by
  apply ext_entry
  intro i j
  simp only [entry_mul, entry_kron]
  exact laws.sumOver_mul_sumOver (A.entry (Index.fst i)) (C.entry · (Index.fst j))
    (B.entry (Index.snd i)) (D.entry · (Index.snd j))

theorem vecMul_kron (laws : w.CommSemiringLaws) (u : Vector α m) (v : Vector α p)
    (A : Matrix α m n) (B : Matrix α p q) :
    vecMul w (w.kronVec u v) (A.kron w B) = w.kronVec (vecMul w u A) (vecMul w v B) := by
  apply ext_get
  intro j
  simp only [get_vecMul, get_kronVec, entry_kron]
  exact laws.sumOver_mul_sumOver u.get (A.entry · (Index.fst j)) v.get (B.entry · (Index.snd j))

theorem mulVec_kron (laws : w.CommSemiringLaws) (A : Matrix α m n) (B : Matrix α p q)
    (u : Vector α n) (v : Vector α q) :
    (A.kron w B).mulVec w (w.kronVec u v) = w.kronVec (A.mulVec w u) (B.mulVec w v) := by
  apply ext_get
  intro i
  simp only [get_mulVec, get_kronVec, entry_kron]
  exact laws.sumOver_mul_sumOver (A.entry (Index.fst i)) u.get (B.entry (Index.snd i)) v.get

end Matrix

/-! ## Three factors -/

section
variable (assoc : ∀ x y z, w.mul (w.mul x y) z = w.mul x (w.mul y z))
include assoc

theorem kronVec_assoc (u : Vector α m) (v : Vector α n) (x : Vector α p) :
    (w.kronVec (w.kronVec u v) x).cast (Nat.mul_assoc m n p) =
      w.kronVec u (w.kronVec v x) := by
  apply ext_get
  intro l
  obtain ⟨i, jk, rfl⟩ := Index.exists_pair l
  obtain ⟨j, k, rfl⟩ := Index.exists_pair jk
  rw [get_cast, Index.cast_pair_pair]
  simp only [get_kronVec_pair, assoc]

theorem Matrix.kron_assoc {m' n' p' : Nat} (A : Matrix α m m') (B : Matrix α n n')
    (C : Matrix α p p') :
    ((A.kron w B).kron w C).cast (Nat.mul_assoc m n p) (Nat.mul_assoc m' n' p') =
      A.kron w (B.kron w C) := by
  apply ext_entry
  intro l l'
  obtain ⟨i, jk, rfl⟩ := Index.exists_pair l
  obtain ⟨j, k, rfl⟩ := Index.exists_pair jk
  obtain ⟨i', jk', rfl⟩ := Index.exists_pair l'
  obtain ⟨j', k', rfl⟩ := Index.exists_pair jk'
  rw [entry_cast, Index.cast_pair_pair, Index.cast_pair_pair]
  simp only [entry_kron, Index.fst_pair, Index.snd_pair, assoc]

end

/-! ## The order of the pairs -/

/-- The product of two vectors lists all products with the first entry, then all with the second,
and so on. -/
theorem Weights.toList_kronVecOf (w : Weights α) (u v : Array α) :
    (w.kronVecOf u v).toList = u.toList.flatMap fun x => v.toList.map (w.mul x) := by
  calc (w.kronVecOf u v).toList
      = List.ofFn (w.kronVec u.toVector v.toVector).get := by
        rw [kronVecOf, kronVec, Vector.toArray_ofFn, Array.toList_ofFn]
        congr 1
        funext i
        rw [get_ofFn]
    _ = (List.ofFn fun i : Fin u.size => List.ofFn fun j : Fin v.size =>
          w.mul u[i] v[j]).flatten := by
        -- the numbers of the pairs run through blocks of one length, one block for each first
        -- index.
        rw [List.ofFn_mul]
        congr 2
        funext i
        congr 1
        funext j
        exact get_kronVec_pair u.toVector v.toVector i j
    _ = u.toList.flatMap fun x => v.toList.map (w.mul x) := by
        rw [List.flatMap_def, ← List.ofFn_getElem_eq_map u.toList]
        congr 2
        funext i
        exact List.ofFn_getElem_eq_map v.toList _

/-! ## Stored matrices -/

namespace StoredMatrix

variable {α : Type} {w : Weights α} {machine : Machine}

/-- How Kronecker products are multiplied, for all stored matrices that are all there and whose
shapes go together. Every product in a law has a result, as long as the machine holds the shapes of
all matrices that the law speaks of and has room for the vectors that come out. -/
structure KronLaws (machine : Machine) (w : Weights α) : Prop where
  mul_kron {A B C D : StoredMatrix α} : A.Whole machine → B.Whole machine → C.Whole machine →
    D.Whole machine → A.cols = C.rows → B.cols = D.rows →
    machine.Holds (A.rows * B.rows) (A.cols * B.cols) →
    machine.Holds (C.rows * D.rows) (C.cols * D.cols) →
    machine.Holds A.rows C.cols → machine.Holds B.rows D.cols →
    machine.Holds (A.rows * B.rows) (C.cols * D.cols) → ∃ AB CD AC BD P,
      A.kron machine w B = .ok AB ∧ C.kron machine w D = .ok CD ∧
        A.mul machine w C = .ok AC ∧ B.mul machine w D = .ok BD ∧
        AB.mul machine w CD = .ok P ∧ AC.kron machine w BD = .ok P
  vecMul_kron {A B : StoredMatrix α} {u v : Array α} : A.Whole machine → B.Whole machine →
    u.size = A.rows → v.size = B.rows → machine.Holds (A.rows * B.rows) (A.cols * B.cols) →
    A.cols ≤ machine.capacity → B.cols ≤ machine.capacity →
    A.cols * B.cols ≤ machine.capacity → ∃ AB x y,
      A.kron machine w B = .ok AB ∧ vecMul machine w u A = .ok x ∧ vecMul machine w v B = .ok y ∧
        vecMul machine w (w.kronVecOf u v) AB = .ok (w.kronVecOf x y)
  mulVec_kron {A B : StoredMatrix α} {u v : Array α} : A.Whole machine → B.Whole machine →
    u.size = A.cols → v.size = B.cols → machine.Holds (A.rows * B.rows) (A.cols * B.cols) →
    A.rows ≤ machine.capacity → B.rows ≤ machine.capacity →
    A.rows * B.rows ≤ machine.capacity → ∃ AB x y,
      A.kron machine w B = .ok AB ∧ A.mulVec machine w u = .ok x ∧ B.mulVec machine w v = .ok y ∧
        AB.mulVec machine w (w.kronVecOf u v) = .ok (w.kronVecOf x y)
  dot_kronVec {u v x y : Array α} : u.size = x.size → v.size = y.size → ∃ a b,
    w.dotOf u x = .ok a ∧ w.dotOf v y = .ok b ∧
      w.dotOf (w.kronVecOf u v) (w.kronVecOf x y) = .ok (w.mul a b)

/-- Each law is that of the matrices of known shape, since the machine computes them as they are.
The shapes of all intermediate results are among the hypotheses, so none of them is too large. -/
theorem kronLaws_of_commSemiringLaws (laws : w.CommSemiringLaws) : KronLaws machine w where
  mul_kron {A B C D} hA hB hC hD hAC hBD hAB hCD hmr hps hresult := by
    obtain ⟨m, n, A, hmn, rfl⟩ := hA.exists_matrix
    obtain ⟨p, q, B, hpq, rfl⟩ := hB.exists_matrix
    obtain ⟨_, r, C, hnr, rfl⟩ := hC.exists_matrix
    obtain ⟨_, s, D, hqs, rfl⟩ := hD.exists_matrix
    obtain rfl : n = _ := hAC
    obtain rfl : q = _ := hBD
    simp only [Matrix.rows_stored, Matrix.cols_stored] at hAB hCD hmr hps hresult
    -- everything but the last product is what the machine makes of the known matrices.
    refine ⟨_, _, _, _, _, Matrix.kron_stored hmn hpq hAB w A B,
      Matrix.kron_stored hnr hqs hCD w C D, Matrix.mul_stored hmn hnr hmr w A C,
      Matrix.mul_stored hpq hqs hps w B D,
      Matrix.mul_stored hAB hCD hresult w (A.kron w B) (C.kron w D), ?_⟩
    rw [Matrix.mul_kron laws]
    exact Matrix.kron_stored hmr hps hresult w (A.mul w C) (B.mul w D)
  vecMul_kron {A B u v} hA hB hu hv hAB hroomA hroomB hroom := by
    obtain ⟨m, n, A, hmn, rfl⟩ := hA.exists_matrix
    obtain ⟨p, q, B, hpq, rfl⟩ := hB.exists_matrix
    simp only [Matrix.rows_stored, Matrix.cols_stored] at hu hv hAB hroomA hroomB hroom
    obtain ⟨u, rfl⟩ := AnyMatrix.exists_vector hu
    obtain ⟨v, rfl⟩ := AnyMatrix.exists_vector hv
    refine ⟨_, _, _, Matrix.kron_stored hmn hpq hAB w A B, Matrix.vecMul_stored hmn hroomA w u A,
      Matrix.vecMul_stored hpq hroomB w v B, ?_⟩
    rw [Weights.kronVecOf_toArray, Weights.kronVecOf_toArray, ← Matrix.vecMul_kron laws]
    exact Matrix.vecMul_stored hAB hroom w (w.kronVec u v) (A.kron w B)
  mulVec_kron {A B u v} hA hB hu hv hAB hroomA hroomB hroom := by
    obtain ⟨m, n, A, hmn, rfl⟩ := hA.exists_matrix
    obtain ⟨p, q, B, hpq, rfl⟩ := hB.exists_matrix
    simp only [Matrix.rows_stored, Matrix.cols_stored] at hu hv hAB hroomA hroomB hroom
    obtain ⟨u, rfl⟩ := AnyMatrix.exists_vector hu
    obtain ⟨v, rfl⟩ := AnyMatrix.exists_vector hv
    refine ⟨_, _, _, Matrix.kron_stored hmn hpq hAB w A B, Matrix.mulVec_stored hmn hroomA w A u,
      Matrix.mulVec_stored hpq hroomB w B v, ?_⟩
    rw [Weights.kronVecOf_toArray, Weights.kronVecOf_toArray, ← Matrix.mulVec_kron laws]
    exact Matrix.mulVec_stored hAB hroom w (A.kron w B) (w.kronVec u v)
  dot_kronVec {u v x y} hux hvy := by
    obtain ⟨u, rfl⟩ := AnyMatrix.exists_vector hux
    obtain ⟨v, rfl⟩ := AnyMatrix.exists_vector hvy
    refine ⟨_, _, w.dotOf_toArray u x.toVector, w.dotOf_toArray v y.toVector, ?_⟩
    rw [Weights.kronVecOf_toArray, ← PathSum.dot_kronVec laws]
    exact w.dotOf_toArray (w.kronVec u v) (w.kronVec x.toVector y.toVector)

/-- **Kronecker products are multiplied factor by factor.** Over commutative weights this holds for
all shapes that go together and that the machine holds, whatever dimensions are zero and however the
program is built. Whatever the weights are, a Kronecker product of vectors lists the pairs in the
order in which the matrices number them. -/
theorem kron_exact (machine : Machine) (w : Weights α) :
    (w.CommSemiringLaws → KronLaws machine w) ∧
    ∀ u v : Array α, (w.kronVecOf u v).toList = u.toList.flatMap fun x => v.toList.map (w.mul x) :=
  ⟨kronLaws_of_commSemiringLaws, w.toList_kronVecOf⟩

/-- The natural numbers as weights. -/
def naturals : Weights Nat :=
  .ofSemiring Nat

/-- A matrix whose entries grow from one diagonal to the next. -/
def slope (m n : Nat) : StoredMatrix Nat :=
  (Matrix.ofFn fun (i : Fin m) (j : Fin n) => i.val + j.val).stored

/-- Slopes of several shapes, two of them without entries. In the mixed product, one of the two
inner indices has no values at all. -/
theorem kron_exact_slope :
    naturals.CommSemiringLaws ∧
    (∃ AB CD AC BD P, (slope 2 3).kron (.ofEntryBytes .stops 8) naturals (slope 1 0) = .ok AB ∧
      (slope 3 4).kron (.ofEntryBytes .stops 8) naturals (slope 0 2) = .ok CD ∧
      (slope 2 3).mul (.ofEntryBytes .stops 8) naturals (slope 3 4) = .ok AC ∧
      (slope 1 0).mul (.ofEntryBytes .stops 8) naturals (slope 0 2) = .ok BD ∧
      AB.mul (.ofEntryBytes .stops 8) naturals CD = .ok P ∧
      AC.kron (.ofEntryBytes .stops 8) naturals BD = .ok P) ∧
    ∃ AB x y, (slope 2 3).kron (.ofEntryBytes .stops 8) naturals (slope 3 4) = .ok AB ∧
      vecMul (.ofEntryBytes .stops 8) naturals #[1, 2] (slope 2 3) = .ok x ∧
      vecMul (.ofEntryBytes .stops 8) naturals #[4, 5, 6] (slope 3 4) = .ok y ∧
      vecMul (.ofEntryBytes .stops 8) naturals (naturals.kronVecOf #[1, 2] #[4, 5, 6]) AB =
        .ok (naturals.kronVecOf x y) := by
  have laws : naturals.CommSemiringLaws := Weights.commSemiringLaws_ofSemiring Nat
  have hlaws := (kron_exact (.ofEntryBytes .stops 8) naturals).1 laws
  -- all shapes are small, so the machine holds them.
  have hslope {m n : Nat} (h : (Machine.ofEntryBytes .stops 8).Holds m n) :
      (slope m n).Whole (.ofEntryBytes .stops 8) :=
    AnyMatrix.whole_stored (A := .of (Matrix.ofFn fun (i : Fin m) (j : Fin n) => i.val + j.val)) h
  have h23 := hslope (m := 2) (n := 3) (by decide)
  have h34 := hslope (m := 3) (n := 4) (by decide)
  have h10 := hslope (m := 1) (n := 0) (by decide)
  have h02 := hslope (m := 0) (n := 2) (by decide)
  refine ⟨laws, ?_, ?_⟩
  · exact hlaws.mul_kron h23 h10 h34 h02 rfl rfl (by decide) (by decide) (by decide)
      (by decide) (by decide)
  · exact hlaws.vecMul_kron h23 h34 rfl rfl (by decide) (by decide) (by decide)
      (by decide)

/-- **A product of Kronecker products may exist where those of the factors do not.** The second
factor on the left has no rows, so the Kronecker product has none either, and no entry is asked for;
but the product of the first factors would have `3 * 2 ^ 63` entries. -/
theorem kron_factors_too_large :
    (hollow UInt64 3 0).cols = (hollow UInt64 0 (2 ^ 63)).rows ∧
    (hollow UInt64 0 1).cols = (StoredMatrix.mk 1 1 #[(1 : UInt64)]).rows ∧
    ∀ overflow : Overflow,
      (∃ AB CD P, (hollow UInt64 3 0).kron (.ofEntryBytes overflow 8) .counting
          (hollow UInt64 0 1) = .ok AB ∧
        (hollow UInt64 0 (2 ^ 63)).kron (.ofEntryBytes overflow 8) .counting ⟨1, 1, #[1]⟩ = .ok CD ∧
        AB.mul (.ofEntryBytes overflow 8) .counting CD = .ok P) ∧
      ∀ AC, (hollow UInt64 3 0).mul (.ofEntryBytes overflow 8) .counting
        (hollow UInt64 0 (2 ^ 63)) ≠ .ok AC := by
  refine ⟨rfl, rfl, fun overflow => ⟨?_, fun AC => mul_hollow_ne_ok⟩⟩
  have hA : (hollow UInt64 3 0).Whole (.ofEntryBytes overflow 8) :=
    whole_hollow (by decide) (by decide) rfl
  have hB : (hollow UInt64 0 1).Whole (.ofEntryBytes overflow 8) :=
    whole_hollow (by decide) (by decide) rfl
  have hC : (hollow UInt64 0 (2 ^ 63)).Whole (.ofEntryBytes overflow 8) :=
    whole_hollow (by decide) (by decide) rfl
  have hD : (StoredMatrix.mk 1 1 #[(1 : UInt64)]).Whole (.ofEntryBytes overflow 8) :=
    ⟨⟨by decide, by decide, show 1 ≤ (UInt64.size / 2 - 1) / 8 by decide⟩, rfl⟩
  obtain ⟨AB, hAB, hwholeAB, hshapeAB⟩ :=
    hA.exists_kron_eq_ok hB (.of_empty (by decide) (by decide) rfl) .counting
  obtain ⟨CD, hCD, hwholeCD, hshapeCD⟩ :=
    hC.exists_kron_eq_ok hD (.of_empty (by decide) (by decide) rfl) .counting
  obtain ⟨hrowsAB, hcolsAB⟩ := Shape.mk.inj hshapeAB
  obtain ⟨hrowsCD, hcolsCD⟩ := Shape.mk.inj hshapeCD
  -- the left side has no rows, so there is room for it.
  have hresult : (Machine.ofEntryBytes overflow 8).Holds AB.rows CD.cols := by
    rw [hrowsAB, hcolsCD]
    exact .of_empty (by decide) (by decide) rfl
  obtain ⟨P, hP, -, -⟩ :=
    hwholeAB.exists_mul_eq_ok hwholeCD (hcolsAB.trans hrowsCD.symm) hresult .counting
  exact ⟨AB, CD, P, hAB, hCD, hP⟩

end StoredMatrix

end PathSum
