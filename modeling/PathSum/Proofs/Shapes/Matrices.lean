import PathSum.Proofs.Matrix.Storage
import PathSum.Proofs.Shapes.Sizes

/-!
# Access to stored matrices

Every stored matrix that can come about is all there if its dimensions and the number of its entries
are numbers of 64 bits (`StoredMatrix.Built.whole`), so it is a matrix of known shape, stored. All
ways to see the entries of such a matrix show the same ones.

* `StoredMatrix.Complete`: what that comes to for access to entries and rows.
* `AnyMatrix.complete_stored`: a matrix of known shape is complete, on every machine that holds it.
* `StoredMatrix.ofRows_eq_error_iff`, `toRows_of_ofRows`: nested rows.

**`StoredMatrix.access_laws`** puts this together. A row is asked for by any number of 64 bits, and
where the row would start and end is computed without a check. The laws for rows are about those
numbers for which the end is still a number of 64 bits (`StoredMatrix.Reaches`); the rows that there
are are among them. `StoredMatrix.row_out_of_reach` shows what becomes of others.
-/

namespace PathSum

variable {α : Type} {machine : Machine}

namespace StoredMatrix

/-- The position after row `i` is a number of 64 bits. -/
structure Reaches (A : StoredMatrix α) (i : Nat) : Prop where
  next_lt : i + 1 < UInt64.size
  past_lt : (i + 1) * A.cols < UInt64.size

/-- No entry is missing, and all ways to see the entries agree. -/
structure Complete (machine : Machine) (A : StoredMatrix α) : Prop where
  size_data : A.data.size = A.rows * A.cols
  /-- The positions of entries and rows in range are never past the data. -/
  position_lt {i j : Nat} : i < A.rows → j < A.cols → i * A.cols + j < A.data.size
  end_le {i : Nat} : i < A.rows → (i + 1) * A.cols ≤ A.data.size
  /-- Each position in the data belongs to one entry. -/
  getElem?_data (p : Nat) : A.get machine (p / A.cols) (p % A.cols) = .ok A.data[p]?
  exists_get_eq_ok (i j : Nat) : ∃ x, A.get machine i j = .ok x ∧
    (x.isSome ↔ i < A.rows ∧ j < A.cols)
  index_eq_ok_iff (i j : Nat) (x : α) :
    A.index machine i j = .ok x ↔ A.get machine i j = .ok (some x)
  index_eq_error_iff (i j : Nat) (e : MatrixFault) :
    A.index machine i j = .error e ↔ A.get machine i j = .ok none ∧ e = .outOfRange ⟨i, j⟩
  reaches {i : Nat} : i < A.rows → A.Reaches i
  row_eq_error_iff {i : Nat} : A.Reaches i →
    ((∃ e, A.row machine i = .error e) ↔ 0 < A.cols ∧ A.rows ≤ i)
  entries_row {i : Nat} {row : List α} : A.Reaches i → A.row machine i = .ok row →
    row.length = A.cols ∧ ∀ j, A.get machine i j = .ok row[j]?
  /-- Nested rows, as long as there is room for so many. -/
  toRows_eq_ok : A.rows ≤ machine.rowCapacity → ∃ rows, A.toRows machine = .ok rows ∧
    rows.length = A.rows ∧
    (∀ i row, rows[i]? = some row ↔ i < A.rows ∧ A.row machine i = .ok row) ∧
    (ofRows machine rows = .ok A ↔ 0 < A.rows ∨ A.cols = 0)
  set_eq_error_iff (i j : Nat) (x : α) (e : MatrixFault) :
    A.set machine i j x = .error e ↔ A.get machine i j = .ok none ∧ e = .outOfRange ⟨i, j⟩
  entries_set {i j : Nat} {x : α} {B : StoredMatrix α} :
    A.set machine i j x = .ok B → B.shape = A.shape ∧
      ∀ k l, B.get machine k l = if k = i ∧ l = j then .ok (some x) else A.get machine k l

/-- Row `i` is the first that has another length than the first row. All rows before it have that
length, and its own length is `len`. -/
structure RaggedAt (rows : List (List α)) (i cols len : Nat) : Prop where
  length_head : rows.head?.map List.length = some cols
  length_row : rows[i]?.map List.length = some len
  length_ne : len ≠ cols
  length_before : ∀ k < i, rows[k]?.map List.length = some cols

end StoredMatrix

/-- If a result can only fail with `d`, then what its errors are mapped to can only fail with the
image of `d`. -/
theorem mapError_eq_error_iff_of {ε ε' : Type} {x : Except ε α} {f : ε → ε'} {p : Prop} {d : ε}
    {e : ε'} (h : ∀ c, x = .error c ↔ p ∧ c = d) : x.mapError f = .error e ↔ p ∧ e = f d := by
  rw [mapError_eq_error_iff]
  constructor
  · rintro ⟨c, hc, rfl⟩
    obtain ⟨hp, rfl⟩ := (h c).mp hc
    exact ⟨hp, rfl⟩
  · rintro ⟨hp, rfl⟩
    exact ⟨d, (h d).mpr ⟨hp, rfl⟩, rfl⟩

/-! ## Entries and rows -/

namespace AnyMatrix

theorem get?_eq_some {A : AnyMatrix α} {i j : Nat} (h : i < A.rows ∧ j < A.cols) :
    A.get? i j = some (A.matrix.entry ⟨i, h.1⟩ ⟨j, h.2⟩) :=
  dif_pos h

/-- Nothing is found only outside of the shape. -/
theorem get?_eq_none_iff (A : AnyMatrix α) (i j : Nat) :
    A.get? i j = none ↔ ¬(i < A.rows ∧ j < A.cols) := by
  refine ⟨fun hnone h => ?_, fun h => dif_neg h⟩
  rw [get?_eq_some h] at hnone
  exact nomatch hnone

theorem isSome_get?_iff (A : AnyMatrix α) (i j : Nat) :
    (A.get? i j).isSome ↔ i < A.rows ∧ j < A.cols := by
  rw [← Option.ne_none_iff_isSome, ne_eq, get?_eq_none_iff, not_not]

/-- Each position in the data belongs to one entry: the quotient by the number of columns is its
row, and the remainder is its column. -/
theorem getElem?_data (A : AnyMatrix α) (p : Nat) :
    A.stored.data[p]? = A.get? (p / A.cols) (p % A.cols) := by
  by_cases hp : p < A.rows * A.cols
  · have hpair := Index.pair_fst_snd (⟨p, hp⟩ : Fin (A.rows * A.cols))
    have hdata := A.getElem?_data_stored (Index.fst ⟨p, hp⟩).isLt (Index.snd ⟨p, hp⟩).isLt
    rw [← Index.val_pair, hpair] at hdata
    rw [hdata]
    exact (get?_eq_some ⟨(Index.fst ⟨p, hp⟩).isLt, (Index.snd ⟨p, hp⟩).isLt⟩).symm
  · have hsize : A.stored.data.size ≤ p := by
      rw [A.size_data_stored]
      exact Nat.le_of_not_lt hp
    rw [Array.getElem?_eq_none hsize, eq_comm, get?_eq_none_iff]
    rintro ⟨hrow, hcol⟩
    have hcols : 0 < A.cols := Nat.zero_lt_of_lt hcol
    exact hp ((Nat.div_lt_iff_lt_mul hcols).mp hrow)

/-- A row lists the entries in its columns, and nothing past them. -/
theorem getElem?_ofFn_entry (A : AnyMatrix α) {i : Nat} (hi : i < A.rows) (j : Nat) :
    (List.ofFn (A.matrix.entry ⟨i, hi⟩))[j]? = A.get? i j := by
  rw [List.getElem?_ofFn, get?]
  by_cases hj : j < A.cols
  · rw [dif_pos hj, dif_pos ⟨hi, hj⟩]
  · rw [dif_neg hj, dif_neg fun h => hj h.2]

/-- A row that is found is as long as there are columns, and shows the entries in their order. This
holds also of the empty rows that are found past the last one. -/
theorem entries_row? {A : AnyMatrix α} {i : Nat} {row : List α} (h : A.row? i = some row) :
    row.length = A.cols ∧ ∀ j, row[j]? = A.get? i j := by
  unfold row? at h
  split at h
  · next hi =>
    cases h
    rw [Matrix.toList_row]
    exact ⟨List.length_ofFn, A.getElem?_ofFn_entry hi⟩
  · next hi =>
    -- past the last row there is only the empty row of a matrix without columns.
    split at h
    · next hcols =>
      cases h
      exact ⟨hcols.symm, fun j => ((A.get?_eq_none_iff i j).mpr fun hij => hi hij.1).symm⟩
    · exact nomatch h

/-- There is no row past the last one, unless all rows are empty. Then every row is found, also
those that are not there. -/
theorem row?_eq_none_iff (A : AnyMatrix α) (i : Nat) :
    A.row? i = none ↔ 0 < A.cols ∧ A.rows ≤ i := by
  unfold row?
  split
  · next hi => exact ⟨nofun, fun h => absurd hi (Nat.not_lt.mpr h.2)⟩
  · next hi =>
    split
    · next hcols => exact ⟨nofun, fun h => absurd hcols (Nat.ne_of_gt h.1)⟩
    · next hcols => exact ⟨fun _ => ⟨Nat.pos_of_ne_zero hcols, Nat.le_of_not_lt hi⟩, fun _ => rfl⟩

/-- Reading an entry that has to be there finds the same as asking for it. -/
theorem index_eq_ok_iff (A : AnyMatrix α) (i j : Nat) (x : α) :
    A.index i j = .ok x ↔ A.get? i j = some x := by
  unfold index
  cases A.get? i j with
  | none => exact ⟨nofun, nofun⟩
  | some y =>
    show (Except.ok y : Except OutOfRange α) = .ok x ↔ _
    rw [Except.ok.injEq, Option.some.injEq]

/-- And where nothing is found, the error names the place that was asked for. -/
theorem index_eq_error_iff (A : AnyMatrix α) (i j : Nat) (e : OutOfRange) :
    A.index i j = .error e ↔ A.get? i j = none ∧ e = ⟨i, j⟩ := by
  unfold index
  cases A.get? i j with
  | none =>
    show (Except.error ⟨i, j⟩ : Except OutOfRange α) = .error e ↔ _
    rw [Except.error.injEq, eq_comm, and_iff_right rfl]
  | some y => exact ⟨nofun, nofun⟩

/-- A row of what is stored is a row of the matrix, as long as the position after it is a number of
64 bits. -/
theorem row_stored_eq_ok_iff (A : AnyMatrix α) {i : Nat} (hi : A.stored.Reaches i)
    (row : List α) : A.stored.row machine i = .ok row ↔ A.row? i = some row := by
  rw [A.row_stored hi.next_lt hi.past_lt]
  cases A.row? i with
  | none => exact ⟨nofun, nofun⟩
  | some r =>
    show (Except.ok r : Except MatrixFault (List α)) = .ok row ↔ _
    rw [Except.ok.injEq, Option.some.injEq]

/-! ## Nested rows -/

theorem length_toRows (A : AnyMatrix α) : A.toRows.length = A.rows :=
  List.length_ofFn

/-- The nested rows are the rows that are there. The empty rows past the last one are not among
them. -/
theorem getElem?_toRows (A : AnyMatrix α) (i : Nat) (row : List α) :
    A.toRows[i]? = some row ↔ i < A.rows ∧ A.row? i = some row := by
  unfold toRows Matrix.toRows row?
  rw [List.getElem?_ofFn]
  by_cases hi : i < A.rows
  · rw [dif_pos hi, dif_pos hi, Matrix.toList_row]
    exact (and_iff_right hi).symm
  · rw [dif_neg hi]
    exact ⟨nofun, fun h => absurd h.1 hi⟩

/-- All nested rows have the same length. -/
theorem map_length_toRows (A : AnyMatrix α) :
    A.toRows.map List.length = List.replicate A.rows A.cols := by
  have hlength : List.length ∘ (fun i => List.ofFn (A.matrix.entry i)) = fun _ => A.cols := by
    funext i
    exact List.length_ofFn
  rw [toRows, Matrix.toRows, List.map_ofFn, hlength, List.ofFn_const]

/-- The rows one after another are the data. So a matrix can be compared with nested rows by lengths
and entries. -/
theorem flatten_toRows (A : AnyMatrix α) : A.toRows.flatten = A.data := by
  have hdata : A.data = List.ofFn fun p : Fin (A.rows * A.cols) => A.matrix.data.get p := by
    have hvector : A.matrix.data = Vector.ofFn fun p => A.matrix.data.get p := by
      apply ext_get
      intro p
      rw [get_ofFn]
    rw [← Vector.toList_ofFn, ← hvector]
    rfl
  rw [hdata, List.ofFn_mul]
  rfl

/-- No row has another length if all lengths are that one. -/
theorem findIdx?_length_eq_none_iff {rows : List (List α)} {cols : Nat} :
    rows.findIdx? (fun row => row.length != cols) = none ↔
      rows.map List.length = List.replicate rows.length cols := by
  rw [List.findIdx?_eq_none_iff, List.eq_replicate_iff, List.length_map, and_iff_right rfl,
    List.forall_mem_map]
  exact forall₂_congr fun row _ => bne_eq_false_iff_eq

/-- The first row is as long as there are columns, unless there is no row. -/
theorem width_toRows (A : AnyMatrix α) :
    (A.toRows.head?.map List.length).getD 0 = if A.rows = 0 then 0 else A.cols := by
  rw [← List.head?_map, map_length_toRows, List.head?_replicate]
  split <;> rfl

/-- A matrix with rows, or without columns, is the one that its rows give. Without rows, nothing
tells how many columns there were. -/
theorem ofRows_toRows {A : AnyMatrix α} (hshape : 0 < A.rows ∨ A.cols = 0) :
    ofRows A.toRows = .ok A := by
  -- the first row decides on the width, if there is one.
  have hwidth : (A.toRows.head?.map List.length).getD 0 = A.cols := by
    rw [width_toRows]
    split
    · next hrows => exact (hshape.resolve_left (by omega)).symm
    · rfl
  have hlengths : A.toRows.findIdx? (fun row => row.length != A.cols) = none := by
    rw [findIdx?_length_eq_none_iff, map_length_toRows, length_toRows]
  unfold ofRows
  dsimp only
  split
  · rw [Except.ok.injEq, ← stored_inj]
    show StoredMatrix.mk A.toRows.length ((A.toRows.head?.map List.length).getD 0)
      A.toRows.flatten.toArray = A.stored
    rw [length_toRows, hwidth, flatten_toRows]
    rfl
  · -- all rows are as long as the first, so none is found that is not.
    next i hsome =>
    rw [hwidth, hlengths] at hsome
    exact nomatch hsome

/-- The matrices that nested rows can give are those with the same rows, except that without rows
there are no columns. -/
theorem ofRows_eq_ok_iff {rows : List (List α)} {A : AnyMatrix α} :
    ofRows rows = .ok A ↔ A.toRows = rows ∧ (0 < A.rows ∨ A.cols = 0) := by
  constructor
  · intro h
    unfold ofRows at h
    dsimp only at h
    split at h
    · next hlengths =>
      cases h
      constructor
      · rw [List.eq_iff_flatten_eq, flatten_toRows, map_length_toRows]
        exact ⟨List.toList_toArray, (findIdx?_length_eq_none_iff.mp hlengths).symm⟩
      · cases rows with
        | nil => exact .inr rfl
        | cons row rows => exact .inl (Nat.succ_pos _)
    · exact nomatch h
  · rintro ⟨rfl, hshape⟩
    exact ofRows_toRows hshape

/-- There is an array for the rows of a matrix that the machine holds. -/
theorem holds_toRows {A : AnyMatrix α} (hA : machine.Holds A.rows A.cols) :
    machine.Holds A.toRows.length ((A.toRows.head?.map List.length).getD 0) := by
  rw [length_toRows, width_toRows]
  split
  · exact ⟨hA.rows_lt, by decide, Nat.zero_le _⟩
  · exact hA

/-- What is stored comes back from its nested rows, unless it has columns and no rows: nested rows
do not say how many columns there are then. -/
theorem ofRows_toRows_stored_iff {A : AnyMatrix α} (hA : machine.Holds A.rows A.cols) :
    StoredMatrix.ofRows machine A.toRows = .ok A.stored ↔ 0 < A.rows ∨ A.cols = 0 := by
  rw [ofRows_stored (holds_toRows hA), mapError_eq_ok_iff, map_eq_ok_iff]
  constructor
  · rintro ⟨B, hB, hAB⟩
    rw [stored_inj.mp hAB] at hB
    exact (ofRows_eq_ok_iff.mp hB).2
  · intro hshape
    exact ⟨A, ofRows_toRows hshape, rfl⟩

/-! ## Single entries -/

/-- Changing an entry fails only where there is none, and says where. -/
theorem set_eq_error_iff (A : AnyMatrix α) (i j : Nat) (x : α) (e : OutOfRange) :
    A.set i j x = .error e ↔ A.get? i j = none ∧ e = ⟨i, j⟩ := by
  rw [get?_eq_none_iff]
  unfold set
  split
  · next h => exact ⟨nofun, fun hnot => absurd h hnot.1⟩
  · next h => rw [Except.error.injEq, eq_comm, and_iff_right h]

/-- One entry is changed, and all others stay as they were. The shape stays too, so the same entries
exist as before. -/
theorem get?_of_set {A B : AnyMatrix α} {i j : Nat} {x : α} (h : A.set i j x = .ok B) :
    B.shape = A.shape ∧ ∀ k l, B.get? k l = if k = i ∧ l = j then some x else A.get? k l := by
  unfold set at h
  split at h
  · next hij =>
    cases h
    refine ⟨rfl, fun k l => ?_⟩
    have hentry := A.matrix.entry_set ⟨i, hij.1⟩ (j := ⟨j, hij.2⟩) (x := x)
    -- only the entries of the new matrix count now.
    generalize A.matrix.set ⟨i, hij.1⟩ ⟨j, hij.2⟩ x = M at hentry ⊢
    by_cases hkl : k < A.rows ∧ l < A.cols
    · have hget : (of M).get? k l = some (M.entry ⟨k, hkl.1⟩ ⟨l, hkl.2⟩) := dif_pos hkl
      rw [hget, get?_eq_some hkl, hentry]
      simp only [Fin.mk.injEq]
      split <;> rfl
    · rw [((of M).get?_eq_none_iff k l).mpr hkl, (A.get?_eq_none_iff k l).mpr hkl, if_neg]
      rintro ⟨rfl, rfl⟩
      exact hkl hij
  · exact nomatch h

/-- **A matrix of known shape shows all its entries in every way**, on every machine that holds
it. -/
theorem complete_stored {A : AnyMatrix α} (hA : machine.Holds A.rows A.cols) :
    A.stored.Complete machine where
  size_data := A.size_data_stored
  position_lt {i j} hi hj := by
    rw [A.size_data_stored]
    exact Index.pair_lt ⟨i, hi⟩ ⟨j, hj⟩
  end_le {i} hi := by
    rw [A.size_data_stored]
    exact Nat.mul_le_mul_right A.cols hi
  getElem?_data p := by
    rw [get_stored hA, A.getElem?_data]
    rfl
  exists_get_eq_ok i j := ⟨A.get? i j, get_stored hA i j, A.isSome_get?_iff i j⟩
  index_eq_ok_iff i j x := by
    rw [index_stored hA, mapError_eq_ok_iff, get_stored hA, Except.ok.injEq]
    exact A.index_eq_ok_iff i j x
  index_eq_error_iff i j e := by
    rw [index_stored hA, get_stored hA, Except.ok.injEq]
    exact mapError_eq_error_iff_of (A.index_eq_error_iff i j)
  reaches {i} hi := by
    have hend : (i + 1) * A.cols ≤ A.rows * A.cols := Nat.mul_le_mul_right A.cols hi
    exact ⟨Nat.lt_of_le_of_lt hi hA.rows_lt, Nat.lt_of_le_of_lt hend hA.size_lt⟩
  row_eq_error_iff {i} hi := by
    rw [rows_stored, cols_stored, ← row?_eq_none_iff, A.row_stored hi.next_lt hi.past_lt]
    cases A.row? i with
    | none => exact ⟨fun _ => rfl, fun _ => ⟨_, rfl⟩⟩
    | some row => exact ⟨nofun, nofun⟩
  entries_row {i row} hi h := by
    obtain ⟨hlength, hentries⟩ := entries_row? ((A.row_stored_eq_ok_iff hi row).mp h)
    refine ⟨hlength, fun j => ?_⟩
    rw [get_stored hA, hentries]
  toRows_eq_ok hrows := by
    refine ⟨A.toRows, toRows_stored hA hrows, A.length_toRows, fun i row => ?_, ?_⟩
    · rw [A.getElem?_toRows, rows_stored]
      refine and_congr_right fun hi => ?_
      rw [row_stored_of_lt hA ⟨i, hi⟩, row?, dif_pos hi, Matrix.toList_row, Option.some_inj,
        Except.ok.injEq]
    · exact ofRows_toRows_stored_iff hA
  set_eq_error_iff i j x e := by
    rw [set_stored hA, get_stored hA, Except.ok.injEq]
    refine mapError_eq_error_iff_of fun d => ?_
    rw [map_eq_error_iff]
    exact A.set_eq_error_iff i j x d
  entries_set {i j x B} h := by
    rw [set_stored hA, mapError_eq_ok_iff] at h
    obtain ⟨C, hC, rfl⟩ := map_eq_ok_iff.mp h
    obtain ⟨hshape, hentries⟩ := get?_of_set hC
    -- what was set has the shape of what it was set in, so the machine holds it too.
    have hholds : machine.Holds C.rows C.cols := by
      obtain ⟨hrows, hcols⟩ := Shape.mk.inj hshape
      rw [hrows, hcols]
      exact hA
    refine ⟨hshape, fun k l => ?_⟩
    rw [get_stored hholds, get_stored hA, hentries]
    split <;> rfl

end AnyMatrix

namespace StoredMatrix

/-- A matrix that is all there is a matrix of known shape, so it shows all its entries. -/
theorem Whole.complete {A : StoredMatrix α} (h : A.Whole machine) : A.Complete machine := by
  obtain ⟨T, hT, rfl⟩ := h.exists_stored
  exact AnyMatrix.complete_stored hT

/-! ## Nested rows -/

/-- The first row of another length, as the search for it finds it: the search stops at it and
reports its length. -/
theorem raggedAt_iff {rows : List (List α)} {i cols len : Nat} :
    RaggedAt rows i cols len ↔ rows.head?.map List.length = some cols ∧
      rows.findIdx? (fun row => row.length != cols) = some i ∧ (rows.getD i []).length = len := by
  constructor
  · rintro ⟨hhead, hrow, hne, hbefore⟩
    obtain ⟨row, hi, rfl⟩ := Option.map_eq_some_iff.mp hrow
    obtain ⟨hlt, rfl⟩ := List.getElem?_eq_some_iff.mp hi
    have hfind : rows.findIdx? (fun row => row.length != cols) = some i := by
      rw [List.findIdx?_eq_some_iff_getElem]
      refine ⟨hlt, bne_iff_ne.mpr hne, fun k hk => ?_⟩
      have hlen := hbefore k hk
      rw [List.getElem?_eq_getElem (Nat.lt_trans hk hlt)] at hlen
      exact not_not_intro (Option.some.inj hlen) ∘ bne_iff_ne.mp
    exact ⟨hhead, hfind, by rw [List.getD_eq_getElem?_getD, hi]; rfl⟩
  · -- the search passed all rows before the one that it found.
    rintro ⟨hhead, hfind, rfl⟩
    obtain ⟨hlt, hne, hbefore⟩ := List.findIdx?_eq_some_iff_getElem.mp hfind
    have hi : rows[i]? = some rows[i] := List.getElem?_eq_getElem hlt
    rw [List.getD_eq_getElem?_getD, hi]
    refine ⟨hhead, ?_, bne_iff_ne.mp hne, ?_⟩
    · rw [hi]
      rfl
    · intro k hk
      have hlen := hbefore k hk
      rw [bne_iff_ne, not_not] at hlen
      rw [List.getElem?_eq_getElem (Nat.lt_trans hk hlt), Option.map_some, hlen]

/-- There is room for so many rows, and the machine holds a matrix with so many, each as long as the
first. -/
structure HoldsRows (machine : Machine) (rows : List (List α)) : Prop where
  length_le : rows.length ≤ machine.rowCapacity
  holds : machine.Holds rows.length ((rows.head?.map List.length).getD 0)

/-- Nested rows are refused because of the first row that has another length than the first. There
has to be an array for as many entries as the first row lets expect, since it is asked for before.
-/
theorem ofRows_eq_error_iff {rows : List (List α)} (hrows : HoldsRows machine rows)
    {e : MatrixFault} :
    ofRows machine rows = .error e ↔
      ∃ i cols len, RaggedAt rows i cols len ∧ e = .shape (.ragged i cols len) := by
  simp only [raggedAt_iff]
  unfold ofRows
  dsimp only
  -- there is an array for the rows, so only their lengths can be wrong.
  rw [hrows.holds.entries_eq_ok, ok_bind, AnyMatrix.joinRows_eq]
  cases hhead : rows.head?.map List.length with
  | none =>
    obtain rfl : rows = [] := by simpa using hhead
    exact ⟨nofun, fun ⟨_, _, _, ⟨h, _⟩, _⟩ => nomatch h⟩
  | some cols =>
    rw [Option.getD_some]
    cases hfind : rows.findIdx? fun row => row.length != cols with
    | none =>
      refine ⟨nofun, ?_⟩
      rintro ⟨i, _, len, ⟨⟨⟩, hi, -⟩, -⟩
      exact nomatch hfind.symm.trans hi
    | some i =>
      simp only [Nat.zero_add]
      constructor
      · intro h
        exact ⟨i, cols, _, ⟨rfl, hfind, rfl⟩, (Except.error.inj h).symm⟩
      · rintro ⟨k, _, _, ⟨⟨⟩, hk, rfl⟩, rfl⟩
        obtain rfl : i = k := Option.some.inj (hfind.symm.trans hk)
        rfl

/-- Nested rows are refused if some row has another length than the first. Among such rows there is
one that comes first. -/
theorem exists_raggedAt_iff {rows : List (List α)} :
    (∃ i cols len, RaggedAt rows i cols len) ↔
      ∃ first, rows.head? = some first ∧ ∃ row ∈ rows, row.length ≠ first.length := by
  constructor
  · rintro ⟨i, cols, len, hragged⟩
    obtain ⟨first, hfirst, rfl⟩ := Option.map_eq_some_iff.mp hragged.length_head
    obtain ⟨row, hrow, rfl⟩ := Option.map_eq_some_iff.mp hragged.length_row
    exact ⟨first, hfirst, row, List.mem_of_getElem? hrow, hragged.length_ne⟩
  · rintro ⟨first, hfirst, row, hrow, hne⟩
    have hfound : (rows.findIdx? fun row => row.length != first.length).isSome := by
      rw [List.findIdx?_isSome, List.any_eq_true]
      exact ⟨row, hrow, bne_iff_ne.mpr hne⟩
    obtain ⟨i, hi⟩ := Option.isSome_iff_exists.mp hfound
    have hwidth : rows.head?.map List.length = some first.length := by
      rw [hfirst, Option.map_some]
    exact ⟨i, _, _, raggedAt_iff.mpr ⟨hwidth, hi, rfl⟩⟩

/-- The rows that a matrix was made from are its rows, also where they are all empty. -/
theorem toRows_of_ofRows {rows : List (List α)} {A : StoredMatrix α}
    (hrows : HoldsRows machine rows) (h : ofRows machine rows = .ok A) :
    A.toRows machine = .ok rows := by
  obtain ⟨hlength, hrows⟩ := hrows
  rw [AnyMatrix.ofRows_stored hrows, mapError_eq_ok_iff] at h
  obtain ⟨T, hT, rfl⟩ := map_eq_ok_iff.mp h
  obtain ⟨rfl, hshape⟩ := AnyMatrix.ofRows_eq_ok_iff.mp hT
  rw [T.length_toRows] at hlength
  have hholds : machine.Holds T.rows T.cols := by
    rw [T.length_toRows, T.width_toRows] at hrows
    split at hrows
    · next hnone =>
      have hcols : T.cols = 0 := hshape.resolve_left (by omega)
      rwa [hcols]
    · exact hrows
  exact AnyMatrix.toRows_stored hholds hlength

/-- **Every matrix that comes about is complete, and nested rows are those of the matrix that they
give.** This holds however the program is built, for all matrices whose dimensions and number of
entries are numbers of 64 bits, whatever the matrices that they were made from are like, and for all
nested rows that there is an array for. -/
theorem access_laws (machine : Machine) :
    (∀ A : StoredMatrix α, A.Built machine → A.rows < UInt64.size → A.cols < UInt64.size →
      A.rows * A.cols < UInt64.size → A.Complete machine) ∧
    ∀ rows : List (List α), HoldsRows machine rows →
      ((∃ e, ofRows machine rows = .error e) ↔
        ∃ first, rows.head? = some first ∧ ∃ row ∈ rows, row.length ≠ first.length) ∧
      (∀ e, ofRows machine rows = .error e ↔
        ∃ i cols len, RaggedAt rows i cols len ∧ e = .shape (.ragged i cols len)) ∧
      ∀ A, ofRows machine rows = .ok A → A.toRows machine = .ok rows := by
  refine ⟨fun A hA hrows hcols hsize => (hA.whole hrows hcols hsize).complete, fun rows hrows => ?_⟩
  refine ⟨?_, fun e => ofRows_eq_error_iff hrows, fun A => toRows_of_ofRows hrows⟩
  rw [← exists_raggedAt_iff]
  simp only [ofRows_eq_error_iff hrows]
  constructor
  · rintro ⟨_, i, cols, len, hragged, -⟩
    exact ⟨i, cols, len, hragged⟩
  · rintro ⟨i, cols, len, hragged⟩
    exact ⟨_, i, cols, len, hragged, rfl⟩

/-- Without rows, the number of columns is lost. And a second row that is empty is not as long as a
first row that is not. -/
theorem access_laws_no_rows :
    (∃ A : StoredMatrix Bool, filled (.ofEntryBytes .wraps 1) 0 3 true = .ok A ∧
      A.Complete (.ofEntryBytes .wraps 1) ∧ ∃ rows, A.toRows (.ofEntryBytes .wraps 1) = .ok rows ∧
        ofRows (.ofEntryBytes .wraps 1) rows ≠ .ok A) ∧
    ofRows (.ofEntryBytes .wraps 1) [[true], []] = .error (.shape (.ragged 1 1 0)) := by
  obtain ⟨hbuilt, hnested⟩ := access_laws (α := Bool) (.ofEntryBytes .wraps 1)
  constructor
  · have hfilled : filled (.ofEntryBytes .wraps 1) 0 3 true = .ok ⟨0, 3, #[]⟩ := by rfl
    have hcomplete := hbuilt _ (.filled hfilled) (by decide) (by decide) (by decide)
    obtain ⟨rows, hrows, -, -, hback⟩ := hcomplete.toRows_eq_ok (by decide)
    refine ⟨_, hfilled, hcomplete, rows, hrows, fun h => ?_⟩
    rcases hback.mp h with hpos | hcols
    · exact Nat.lt_irrefl 0 hpos
    · exact nomatch hcols
  · have hholds : HoldsRows (.ofEntryBytes .wraps 1) [[true], []] :=
      ⟨by decide, by decide⟩
    have hragged : RaggedAt [[true], []] 1 1 0 := ⟨rfl, rfl, by decide, by decide⟩
    exact ((hnested [[true], []] hholds).2.1 _).mpr ⟨1, 1, 0, hragged, rfl⟩

/-- Where a row would end past the numbers of 64 bits, it depends on the program what becomes of it.
If numbers are reduced, row `2 ^ 63` of a matrix with one row is that row, because its ends are
reduced to the ends of the data. If the program stops, it also stops for the last number of 64 bits
in a matrix without columns, where every row is empty and none is past the data. -/
theorem row_out_of_reach :
    (∃ A : StoredMatrix Nat, ofRows (.ofEntryBytes .wraps 8) [[10, 20]] = .ok A ∧
      0 < A.cols ∧ A.rows ≤ 2 ^ 63 ∧ A.row (.ofEntryBytes .wraps 8) (2 ^ 63) = .ok [10, 20]) ∧
    ∃ A : StoredMatrix Nat, filled (.ofEntryBytes .stops 8) 3 0 10 = .ok A ∧
      A.cols = 0 ∧ A.row (.ofEntryBytes .stops 8) (2 ^ 64 - 1) = .error (.overflow (2 ^ 64)) := by
  constructor
  · exact ⟨⟨1, 2, #[10, 20]⟩, by rfl, by decide, by decide, by decide⟩
  · exact ⟨⟨3, 0, #[]⟩, by rfl, by rfl, by decide⟩

end StoredMatrix

end PathSum
