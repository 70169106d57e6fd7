import PathSum.HiddenMarkov.Flaws
import PathSum.Proofs.HiddenMarkov.AsAutomaton
import PathSum.Proofs.Shapes.Models

/-!
# Which models are made

The checks of a new model stop at the first thing that is wrong. They look at the entries beside the
diagonals, of which the forward pass reads none: so a model weighs all words like the one that is
made from its diagonals, whatever counts as zero.

* `offDiagonal?_eq_some_iff`: what the loops over one matrix find is the first stray entry.
* `checkEmission_eq_error_iff`, `ofParts_eq_error_iff`: the checks report the flaw.
* `exists_ofEmissionVectors_iff`: of vectors only the lengths can be wrong.
* `forward_ofDiagonals`: the forward pass reads the diagonals.

**`construction_exact`** puts this together.
-/

namespace PathSum.HiddenMarkov

variable {σ α : Type} {w : Weights α} {n : Nat} {A : AnyMatrix α} {e : ShapeError}

/-! ## Shapes -/

/-- The check of a shape reports the flaw in it: first that the matrix is not square, then that it
has the wrong size. -/
theorem squareOf_eq_error_iff {what : Operand} :
    A.squareOf n what = .error e ↔ ShapeFlaw what n A e := by
  constructor
  · intro h
    unfold AnyMatrix.squareOf at h
    split at h
    · next hsquare =>
      split at h
      · cases h
      · next hn =>
        cases h
        exact .wrongSize hsquare hn
    · next hsquare =>
      cases h
      exact .notSquare hsquare
  · intro h
    cases h with
    | notSquare hsquare => exact dif_neg hsquare
    | wrongSize hsquare hn => rw [AnyMatrix.squareOf, dif_pos hsquare, dif_neg hn]

/-! ## Stray entries -/

variable {M : Matrix α n n}

/-- Stray entries are those beside the diagonal that do not count as zero. -/
theorem strayAt_of_iff {i j : Fin n} :
    StrayAt w (.of M) i j ↔ i ≠ j ∧ w.same (M.entry i j) w.zero = false := by
  simp only [StrayAt, AnyMatrix.get?_of_iff, ne_eq, Fin.ext_iff]
  constructor
  · rintro ⟨hne, x, ⟨_, rfl⟩, hx⟩
    exact ⟨hne, hx⟩
  · rintro ⟨hne, hx⟩
    exact ⟨hne, _, ⟨j.isLt, rfl⟩, hx⟩

/-- A stray entry is an entry of the matrix. -/
theorem StrayAt.lt {i j : Nat} (h : StrayAt w A i j) : i < A.rows ∧ j < A.cols := by
  obtain ⟨-, x, hx, -⟩ := h
  by_contra hlt
  rw [AnyMatrix.get?, dif_neg hlt] at hx
  cases hx

/-- The search finds nothing where there is nothing to be found, and otherwise it finds something.
-/
theorem forall_not_strayAt_of_iff :
    (∀ i j, ¬ StrayAt w (.of M) i j) ↔ offDiagonal? w M = none := by
  rw [offDiagonal?_eq_none_iff]
  constructor
  · intro h i j hne
    by_contra hx
    exact h i j (strayAt_of_iff.mpr ⟨hne, Bool.eq_false_iff.mpr hx⟩)
  · intro h i j hstray
    obtain ⟨hi, hj⟩ := hstray.lt
    obtain ⟨hne, hx⟩ := strayAt_of_iff (i := ⟨i, hi⟩) (j := ⟨j, hj⟩).mp hstray
    exact Bool.eq_false_iff.mp hx (h _ _ hne)

/-- What the loop over the columns answers for one entry. -/
theorem cell_eq_none_iff {i j : Fin n} :
    (if i = j || w.same (M.entry i j) w.zero then none else some (i, j)) = none ↔
      ¬ StrayAt w (.of M) i j := by
  rw [strayAt_of_iff]
  by_cases h : i = j <;> simp [h]

/-- For a stray entry it answers where that is. -/
theorem cell_eq_some_iff {i j k l : Fin n} :
    (if i = j || w.same (M.entry i j) w.zero then none else some (i, j)) = some (k, l) ↔
      StrayAt w (.of M) i j ∧ i = k ∧ j = l := by
  rw [strayAt_of_iff]
  by_cases h : i = j <;> simp [h]

/-- **The two loops find the first stray entry.** It is the first in the order of the rows, and in
its row the first in the order of the columns. -/
theorem offDiagonal?_eq_some_iff {i j : Fin n} :
    offDiagonal? w M = some (i, j) ↔ FirstStray w (.of M) i j := by
  simp only [offDiagonal?, ← Fin.findSome?_eq_findSome?_finRange, Fin.findSome?_eq_some_iff,
    Fin.findSome?_eq_none_iff, cell_eq_none_iff, cell_eq_some_iff]
  constructor
  · -- the outer loop passed all rows above, and the inner one all columns before.
    rintro ⟨i, ⟨j, ⟨hstray, rfl, rfl⟩, hrow⟩, habove⟩
    refine ⟨hstray, fun k l hkl => ?_⟩
    obtain ⟨hk, hl⟩ := hkl.lt
    obtain hlt | heq | hgt := Nat.lt_trichotomy k i
    · exact absurd hkl (habove ⟨k, hk⟩ hlt ⟨l, hl⟩)
    · refine .inr ⟨heq.symm, Nat.le_of_not_lt fun hlj => ?_⟩
      subst heq
      exact hrow ⟨l, hl⟩ hlj hkl
    · exact .inl hgt
  · rintro ⟨hstray, hfirst⟩
    refine ⟨i, ⟨j, ⟨hstray, rfl, rfl⟩, fun l hl hil => ?_⟩, fun k hk l hkl => ?_⟩
    · have hafter := hfirst i l hil
      have hl' : l.val < j.val := hl
      omega
    · have hafter := hfirst k l hkl
      have hk' : k.val < i.val := hk
      omega

/-! ## The checks -/

/-- A matrix of the right size is admissible if the search finds nothing in it. -/
theorem admissible_of_iff : Admissible w n (.of M) ↔ offDiagonal? w M = none := by
  constructor
  · intro h
    exact forall_not_strayAt_of_iff.mp h.diagonal
  · intro h
    exact ⟨rfl, forall_not_strayAt_of_iff.mpr h⟩

/-- The check of one emission matrix reports the flaw in it: one of the shape before a stray entry.
-/
theorem checkEmission_eq_error_iff : checkEmission w n A = .error e ↔ EmissionFlaw w n A e := by
  constructor
  · intro h
    obtain hsquare | ⟨M, hM, hcheck⟩ := bind_eq_error_iff.mp h
    · exact .shape (squareOf_eq_error_iff.mp hsquare)
    · obtain rfl := AnyMatrix.squareOf_eq_ok_iff.mp hM
      split at hcheck
      · exact nomatch hcheck
      · next i j hij =>
        cases hcheck
        exact .stray rfl (offDiagonal?_eq_some_iff.mp hij)
  · intro h
    cases h with
    | shape hflaw => exact bind_eq_error_iff.mpr (.inl (squareOf_eq_error_iff.mpr hflaw))
    | @stray i j hshape hfirst =>
      obtain ⟨M, rfl⟩ := AnyMatrix.exists_of_shape hshape
      obtain ⟨hi, hj⟩ := hfirst.stray.lt
      -- the matrix passes the check of its shape, so the search for a stray entry is reached.
      have hfind : offDiagonal? w M = some (⟨i, hi⟩, ⟨j, hj⟩) :=
        offDiagonal?_eq_some_iff.mpr hfirst
      refine bind_eq_error_iff.mpr (.inr ⟨M, AnyMatrix.squareOf_of M _, ?_⟩)
      rw [hfind]
      rfl

/-- And it is passed where there is none: the matrix has the expected size, and all that stands
beside its diagonal counts as zero. -/
theorem exists_checkEmission_iff : (∃ M, checkEmission w n A = .ok M) ↔ Admissible w n A := by
  constructor
  · rintro ⟨M, hM⟩
    obtain rfl := of_eq_of_checkEmission hM
    exact admissible_of_iff.mpr (offDiagonal?_eq_none_iff.mpr (checkEmission_eq_ok hM))
  · intro h
    obtain ⟨M, rfl⟩ := AnyMatrix.exists_of_shape h.shape
    refine ⟨M, bind_eq_ok_iff.mpr ⟨M, AnyMatrix.squareOf_of M _, ?_⟩⟩
    rw [admissible_of_iff.mp h]
    rfl

/-! ## New models -/

variable {transition : AnyMatrix α} {emission : SymbolMap σ (AnyMatrix α)} {initial : Array α}

/-- **The checks report the flaw.** The transition matrix is checked first, then the emission
matrices in the order of the map, and the first flaw ends it. -/
theorem ofParts_eq_error_iff :
    ofParts w transition emission initial = .error e ↔
      Flaw w initial.size transition emission e := by
  constructor
  · intro h
    obtain hsquare | ⟨T, hT, hrest⟩ := bind_eq_error_iff.mp h
    · exact .transition (squareOf_eq_error_iff.mp hsquare)
    · obtain hemission | ⟨E, -, hdone⟩ := bind_eq_error_iff.mp hrest
      · -- the loop over the map stopped at a matrix with a flaw, behind others without one.
        obtain rfl := AnyMatrix.squareOf_eq_ok_iff.mp hT
        obtain ⟨before, s, A, after, hentries, hbefore, hA⟩ :=
          SymbolMap.tryMap_eq_error_first_iff.mp hemission
        exact .emission rfl hentries
          (fun _ hentry => exists_checkEmission_iff.mp (hbefore _ hentry))
          (checkEmission_eq_error_iff.mp hA)
      · exact nomatch hdone
  · intro h
    cases h with
    | transition hflaw => exact bind_eq_error_iff.mpr (.inl (squareOf_eq_error_iff.mpr hflaw))
    | emission hshape hentries hbefore hflaw =>
      obtain ⟨T, rfl⟩ := AnyMatrix.exists_of_shape hshape
      refine bind_eq_error_iff.mpr (.inr ⟨T, AnyMatrix.squareOf_of T _, ?_⟩)
      refine bind_eq_error_iff.mpr (.inl (SymbolMap.tryMap_eq_error_first_iff.mpr ?_))
      exact ⟨_, _, _, _, hentries,
        fun _ hentry => exists_checkEmission_iff.mpr (hbefore _ hentry),
        checkEmission_eq_error_iff.mpr hflaw⟩

/-- Parts that pass the checks. -/
theorem ofParts_of {E : SymbolMap σ (Matrix α initial.size initial.size)}
    (T : Matrix α initial.size initial.size)
    (hE : emission.tryMap (checkEmission w initial.size) = .ok E) :
    ofParts w (.of T) emission initial =
      .ok ⟨w, initial.size, T, E, initial.toVector, none⟩ := by
  rw [ofParts, AnyMatrix.squareOf_of, ok_bind, hE]
  rfl

/-- Parts make a model if and only if none of them has a flaw. The order of the checks does not
matter for this. -/
theorem exists_ofParts_iff :
    (∃ H, ofParts w transition emission initial = .ok H) ↔
      transition.shape = ⟨initial.size, initial.size⟩ ∧
        ∀ A ∈ emission.values, Admissible w initial.size A := by
  -- the loop over the map has a result exactly if no check of it fails.
  have hmap : (∃ E, emission.tryMap (checkEmission w initial.size) = .ok E) ↔
      ∀ A ∈ emission.values, Admissible w initial.size A := by
    simp only [exists_eq_ok_iff, SymbolMap.tryMap_eq_error_iff, ← exists_checkEmission_iff]
    push Not
    rfl
  rw [← hmap]
  constructor
  · rintro ⟨H, hH⟩
    obtain ⟨T, hT, hrest⟩ := bind_eq_ok_iff.mp hH
    obtain ⟨E, hE, -⟩ := bind_eq_ok_iff.mp hrest
    obtain rfl := AnyMatrix.squareOf_eq_ok_iff.mp hT
    exact ⟨rfl, E, hE⟩
  · rintro ⟨hshape, E, hE⟩
    obtain ⟨T, rfl⟩ := AnyMatrix.exists_of_shape hshape
    exact ⟨_, ofParts_of T hE⟩

/-- A new model has the parts that were given, and no weights of ending. -/
theorem stored_of_ofParts {H : HiddenMarkov σ α}
    (h : ofParts w transition emission initial = .ok H) :
    H.stored = ⟨w, initial.size, transition, emission, initial, none⟩ := by
  have hstored := ofParts_stored w transition emission initial
  rw [h] at hstored
  obtain ⟨_, -, hrest⟩ := bind_eq_ok_iff.mp hstored
  obtain ⟨_, -, hdone⟩ := bind_eq_ok_iff.mp hrest
  exact (Except.ok.inj hdone).symm

/-! ## Vectors -/

variable {vectors : SymbolMap σ (Array α)}

/-- A diagonal matrix has nothing beside its diagonal, as long as the weights take zero for zero. -/
theorem offDiagonal?_diagonal (hzero : w.same w.zero w.zero = true) (v : Vector α n) :
    offDiagonal? w (Matrix.diagonal w v) = none := by
  refine offDiagonal?_eq_none_iff.mpr fun i j hne => ?_
  rw [Matrix.entry_diagonal, if_neg hne]
  exact hzero

/-- So of a vector only the length matters. -/
theorem admissible_diagonal_iff (hzero : w.same w.zero w.zero = true) {v : Array α} :
    Admissible w n (.of (Matrix.diagonal w v.toVector)) ↔ v.size = n := by
  constructor
  · intro h
    exact (Shape.mk.inj h.shape).1
  · rintro rfl
    exact admissible_of_iff.mpr (offDiagonal?_diagonal hzero _)

/-- Vectors make a model if and only if all of them have the right length. -/
theorem exists_ofEmissionVectors_iff (hzero : w.same w.zero w.zero = true) :
    (∃ H, ofEmissionVectors w transition vectors initial = .ok H) ↔
      transition.shape = ⟨initial.size, initial.size⟩ ∧
        ∀ v ∈ vectors.values, v.size = initial.size := by
  rw [ofEmissionVectors, exists_ofParts_iff, SymbolMap.values_map]
  simp only [List.forall_mem_map, admissible_diagonal_iff hzero]

/-- Beside the diagonal of a diagonal matrix there is nothing to be found. The zeros that stand
there count as zero, which is asked of the weights. -/
theorem ofEmissionVectors_ne_notDiagonal (hzero : w.same w.zero w.zero = true) (i j : Nat) :
    ofEmissionVectors w transition vectors initial ≠ .error (.notDiagonal i j) := by
  intro h
  cases ofParts_eq_error_iff.mp h with
  | transition hflaw => exact nomatch hflaw
  | @emission before after symbol A _ _ hentries _ hflaw =>
    have hmem : (symbol, A) ∈
        (vectors.map fun v => AnyMatrix.of (Matrix.diagonal w v.toVector)).entries :=
      hentries ▸ List.mem_append_right before (List.mem_cons_self ..)
    obtain ⟨⟨_, v⟩, -, hv⟩ := List.mem_map.mp hmem
    obtain ⟨rfl, rfl⟩ := Prod.mk.inj hv
    cases hflaw with
    | shape hshape => exact nomatch hshape
    | stray _ hfirst =>
      exact forall_not_strayAt_of_iff.mpr (offDiagonal?_diagonal hzero _) _ _ hfirst.stray

/-! ## Diagonals -/

/-- The diagonal of a matrix, and zero everywhere else. -/
def onDiagonal (w : Weights α) (E : Matrix α n n) : Matrix α n n :=
  .diagonal w (Vector.ofFn fun i => E.entry i i)

/-- The model that has nothing beside the diagonals. -/
@[reducible]
def ofDiagonals (H : HiddenMarkov σ α) : HiddenMarkov σ α :=
  { H with emission := H.emission.map (onDiagonal H.weights) }

/-- The diagonal matrix of a vector of the right length passes the check. -/
theorem checkEmission_toVector (hzero : w.same w.zero w.zero = true) (v : Vector α n) :
    checkEmission w n (.of (Matrix.diagonal w v.toArray.toVector)) = .ok (Matrix.diagonal w v) := by
  obtain ⟨v, rfl⟩ := v
  refine bind_eq_ok_iff.mpr ⟨_, AnyMatrix.squareOf_of _ _, ?_⟩
  rw [offDiagonal?_diagonal hzero]
  rfl

/-- From the diagonals of a new model comes the model that has nothing beside them. What counted as
zero there is replaced by zero. -/
theorem ofEmissionVectors_shown (hzero : w.same w.zero w.zero = true) {H : HiddenMarkov σ α}
    (h : ofParts w transition emission initial = .ok H) :
    ofEmissionVectors w transition H.shown initial = .ok H.ofDiagonals := by
  obtain ⟨T, hT, hrest⟩ := bind_eq_ok_iff.mp h
  obtain ⟨E, -, hdone⟩ := bind_eq_ok_iff.mp hrest
  obtain rfl := AnyMatrix.squareOf_eq_ok_iff.mp hT
  obtain rfl := Except.ok.inj hdone
  rw [ofEmissionVectors, shown, SymbolMap.map_map]
  exact ofParts_of T (SymbolMap.tryMap_map_eq_ok (fun _ => checkEmission_toVector hzero _) E)

/-- It makes no difference whether weights of ending are given before or after the entries beside
the diagonals are dropped. -/
theorem withFinal_ofDiagonals (H : HiddenMarkov σ α) (final : Array α) :
    H.ofDiagonals.withFinal final = (H.withFinal final).map ofDiagonals := by
  rw [withFinal, withFinal]
  cases checkLength .finalWeights H.size final <;> rfl

/-- A step of the forward pass reads the diagonal of the emission matrix only. -/
theorem step_ofDiagonals (H : HiddenMarkov σ α) (v : Vector α H.size)
    (E : Matrix α H.size H.size) : H.step v E = H.ofDiagonals.step v (onDiagonal H.weights E) := by
  simp only [step, onDiagonal, Matrix.entry_diagonal, if_true, get_ofFn]

/-- The end of the forward pass does not look at the matrices. -/
theorem finish_ofDiagonals (H : HiddenMarkov σ α) (v : Vector α H.size) :
    H.ofDiagonals.finish v = H.finish v := by
  obtain ⟨weights, size, transition, emission, initial, final⟩ := H
  cases final <;> rfl

variable [DecidableEq σ]

/-- **The forward pass reads the diagonals**, and nothing else of the emission matrices. So what
counts as zero beside them has no influence on any weight. -/
theorem forward_ofDiagonals (H : HiddenMarkov σ α) (word : List σ) :
    H.ofDiagonals.forward word = H.forward word := by
  have hpass : word.foldlM (fun v s => (H.ofDiagonals.emission.lookup s).map (H.ofDiagonals.step v))
      H.initial =
        (word.foldlM (fun v s => (H.emission.lookup s).map (H.step v)) H.initial).map id :=
    SymbolMap.foldlM_lookup_map (f := id) (step_ofDiagonals H) H.emission H.initial word
  rw [forward, hpass, forward]
  cases word.foldlM (fun v s => (H.emission.lookup s).map (H.step v)) H.initial with
  | error e => rfl
  | ok v =>
    show Except.ok (H.ofDiagonals.finish v) = .ok (H.finish v)
    rw [finish_ofDiagonals]

/-! ## All together -/

/-- **New models are the diagonal ones.** The initial vector decides the number of states. Parts
make a model, which keeps them, if and only if all matrices have as many rows and columns and the
emission matrices have nothing beside their diagonals that does not count as zero; otherwise the
first flaw is reported. Where zero counts as zero, vectors make a model if and only if their lengths
go together, and no entry of theirs is reported; and every new model weighs all words like the one
that the diagonals of its emission matrices make, with the same weights of ending or without. -/
theorem construction_exact (w : Weights α) (transition : AnyMatrix α)
    (emission : SymbolMap σ (AnyMatrix α)) (initial : Array α) :
    ((∃ H, ofParts w transition emission initial = .ok H) ↔
      transition.shape = ⟨initial.size, initial.size⟩ ∧
        ∀ A ∈ emission.values, Admissible w initial.size A) ∧
    (∀ H, ofParts w transition emission initial = .ok H →
      H.stored = ⟨w, initial.size, transition, emission, initial, none⟩) ∧
    (∀ e, ofParts w transition emission initial = .error e ↔
      Flaw w initial.size transition emission e) ∧
    (w.same w.zero w.zero = true →
      (∀ vectors : SymbolMap σ (Array α),
        ((∃ H, ofEmissionVectors w transition vectors initial = .ok H) ↔
          transition.shape = ⟨initial.size, initial.size⟩ ∧
            ∀ v ∈ vectors.values, v.size = initial.size) ∧
        ∀ i j, ofEmissionVectors w transition vectors initial ≠ .error (.notDiagonal i j)) ∧
      ∀ H, ofParts w transition emission initial = .ok H →
        ∃ R, ofEmissionVectors w transition H.shown initial = .ok R ∧
          (∀ word, R.forward word = H.forward word) ∧
          ∀ final word, (R.withFinal final).map (·.forward word) =
            (H.withFinal final).map (·.forward word)) := by
  refine ⟨exists_ofParts_iff, fun H => stored_of_ofParts, fun e => ofParts_eq_error_iff,
    fun hzero => ⟨fun vectors => ⟨exists_ofEmissionVectors_iff hzero,
      ofEmissionVectors_ne_notDiagonal hzero⟩, fun H hH => ?_⟩⟩
  refine ⟨H.ofDiagonals, ofEmissionVectors_shown hzero hH, H.forward_ofDiagonals,
    fun final word => ?_⟩
  -- the weights of ending are checked against the size alone, which is the same.
  rw [withFinal_ofDiagonals]
  cases H.withFinal final with
  | error e => rfl
  | ok K =>
    show Except.ok (K.ofDiagonals.forward word) = .ok (K.forward word)
    rw [forward_ofDiagonals]

/-- Counts of which a difference of one is forgiven. -/
def forgiving : Weights Nat where
  zero := 0
  one := 1
  add := (· + ·)
  mul := (· * ·)
  same a b := a ≤ b + 1 && b ≤ a + 1

/-- A matrix that is not quite diagonal. -/
def nearlyDiagonal : Matrix Nat 2 2 :=
  .ofFn fun i j => if i = j then i.val + 2 else 1

/-- Ones beside the diagonal are forgiven, and of two matrices with a flaw the first one counts. -/
theorem construction_exact_forgiving :
    (∃ H R, ofParts forgiving (.of (.filled 2 2 1)) (.ofList [('u', .of nearlyDiagonal)])
        #[1, 4] = .ok H ∧ H.forward ['u', 'u'] = .ok 140 ∧
      ofEmissionVectors forgiving (.of (.filled 2 2 1)) H.shown #[1, 4] = .ok R ∧
        R.forward ['u', 'u'] = .ok 140) ∧
    Flaw forgiving 2 (.of (.filled 2 2 1)) (.ofList [('u', .of nearlyDiagonal),
      ('n', .of (.filled 2 2 2)), ('x', .of (.filled 1 2 0))]) (.notDiagonal 0 1) := by
  have hnew : ofParts forgiving (.of (.filled 2 2 1)) (.ofList [('u', .of nearlyDiagonal)])
      #[1, 4] = .ok ⟨forgiving, 2, .filled 2 2 1, .ofList [('u', nearlyDiagonal)], #v[1, 4],
        none⟩ := by rfl
  obtain ⟨-, -, -, hvectors⟩ := construction_exact forgiving (.of (.filled 2 2 1))
    (.ofList [('u', .of nearlyDiagonal)]) #[1, 4]
  obtain ⟨R, hR, hforward, -⟩ := (hvectors rfl).2 _ hnew
  obtain ⟨-, -, hflaw, -⟩ := construction_exact forgiving (.of (.filled 2 2 1))
    (.ofList [('u', .of nearlyDiagonal), ('n', .of (.filled 2 2 2)), ('x', .of (.filled 1 2 0))])
    #[1, 4]
  exact ⟨⟨_, R, hnew, by decide, hR, (hforward _).trans (by decide)⟩, (hflaw _).mp (by rfl)⟩

end PathSum.HiddenMarkov
