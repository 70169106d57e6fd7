import Mathlib.Logic.Basic
import PathSum.AnyMatrix.Stored
import PathSum.Loop

/-!
# Numbers of entries

However a stored matrix comes about, and however the program is built, the number of its entries is
the product of its dimensions, provided that 64 bits can hold this product. Nothing is asked of the
matrices that it was made from: they may be larger, and then they need not have all their entries.
Still no operation turns a gap of theirs into a gap of a matrix that is small enough, because each
operation takes the number of entries from the dimensions of its result, and then only changes
entries or puts one after another at the end.

* `StoredMatrix.Built`: the matrices that can come about.
* `StoredMatrix.Sized`: the invariant. `sized_filled` and `sized_fromFn` are about the two ways in
  which data is made, `SameSize` is about data that is changed in place.
* `StoredMatrix.Built.sized`: the invariant holds, by induction on how a matrix came about.
* `StoredMatrix.Built.whole`: what it says of matrices whose dimensions and number of entries are
  numbers of 64 bits.
-/

namespace PathSum.StoredMatrix

variable {α β : Type} {machine : Machine}

/-- The matrices that can come about on a machine. Entries may be changed after a matrix was made,
and data that is read in was in an array before. -/
inductive Built (machine : Machine) : {α : Type} → StoredMatrix α → Prop where
  | ofRows {α : Type} {rows : List (List α)} {A : StoredMatrix α} :
      StoredMatrix.ofRows machine rows = .ok A → Built machine A
  | filled {α : Type} {rows cols : Nat} {x : α} {A : StoredMatrix α} :
      StoredMatrix.filled machine rows cols x = .ok A → Built machine A
  | fromFn {α : Type} {rows cols : Nat} {f : Nat → Nat → α} {A : StoredMatrix α} :
      StoredMatrix.fromFn machine rows cols (fun i j => .ok (f i j)) = .ok A → Built machine A
  | zero {α : Type} {w : Weights α} {rows cols : Nat} {A : StoredMatrix α} :
      StoredMatrix.zero machine w rows cols = .ok A → Built machine A
  | identity {α : Type} {w : Weights α} {n : Nat} {A : StoredMatrix α} :
      StoredMatrix.identity machine w n = .ok A → Built machine A
  | diagonal {α : Type} {w : Weights α} {d : Array α} {A : StoredMatrix α} :
      StoredMatrix.diagonal machine w d = .ok A → Built machine A
  | ofData {α : Type} {rows cols : Nat} {data : Array α} {A : StoredMatrix α} :
      data.size ≤ machine.capacity → StoredMatrix.ofData rows cols data = .ok A → Built machine A
  | map {α β : Type} (f : α → β) {A : StoredMatrix α} : Built machine A → Built machine (A.map f)
  | transpose {α : Type} {A B : StoredMatrix α} :
      Built machine A → A.transpose machine = .ok B → Built machine B
  | mul {α : Type} {w : Weights α} {A B C : StoredMatrix α} :
      Built machine A → Built machine B → A.mul machine w B = .ok C → Built machine C
  | add {α : Type} {w : Weights α} {A B C : StoredMatrix α} :
      Built machine A → Built machine B → A.add w B = .ok C → Built machine C
  | kron {α : Type} {w : Weights α} {A B C : StoredMatrix α} :
      Built machine A → Built machine B → A.kron machine w B = .ok C → Built machine C
  | pow {α : Type} {w : Weights α} {A B : StoredMatrix α} {k : Nat} :
      Built machine A → A.pow machine w k = .ok B → Built machine B
  | boundedStar {α : Type} {w : Weights α} {A B : StoredMatrix α} {len : Nat} :
      Built machine A → A.boundedStar machine w len = .ok B → Built machine B
  | set {α : Type} {A B : StoredMatrix α} {i j : Nat} {x : α} :
      Built machine A → A.set machine i j x = .ok B → Built machine B

/-- The number of entries is right if 64 bits can hold it, and then there is an array for them. -/
def Sized (machine : Machine) (A : StoredMatrix α) : Prop :=
  A.rows * A.cols < UInt64.size →
    A.data.size = A.rows * A.cols ∧ A.data.size ≤ machine.capacity

/-! ## Data that is made -/

/-- The size of the array is computed from the dimensions. -/
theorem sized_filled {rows cols : Nat} {x : α} {A : StoredMatrix α}
    (h : filled machine rows cols x = .ok A) : A.Sized machine := by
  intro hsize
  obtain ⟨size, hentries, hA⟩ := bind_eq_ok_iff.mp h
  cases hA
  rw [Array.size_replicate]
  exact ⟨Machine.eq_of_entries hentries hsize, Machine.le_capacity_of_entries hentries⟩

/-- One row puts as many entries at the end as there are columns. -/
theorem size_of_pushRow {cols : Nat} {f : Nat → Except MatrixFault α} {data data' : Array α}
    (h : Fin.foldlM cols (fun (data : Array α) (j : Fin cols) => (f j).map data.push) data =
      .ok data') : data'.size = data.size + cols := by
  refine of_foldlM_eq_ok (P := fun j data' => data'.size = data.size + j) ?_ rfl h
  intro before j after hbefore hstep
  obtain ⟨x, -, rfl⟩ := map_eq_ok_iff.mp hstep
  rw [Array.size_push, hbefore, Nat.add_assoc]

/-- However many entries the array was made for, all that the loops ask for are put into it. -/
theorem sized_fromFn {rows cols : Nat} {f : Nat → Nat → Except MatrixFault α} {A : StoredMatrix α}
    (h : fromFn machine rows cols f = .ok A) : A.Sized machine := by
  intro hsize
  obtain ⟨size, hentries, hrest⟩ := bind_eq_ok_iff.mp h
  obtain ⟨data, hdata, hA⟩ := bind_eq_ok_iff.mp hrest
  cases hA
  have hcount : data.size = rows * cols := by
    refine of_foldlM_eq_ok (P := fun i data => data.size = i * cols) ?_ (by simp) hdata
    intro before i after hbefore hstep
    rw [size_of_pushRow hstep, hbefore, Nat.succ_mul]
  rw [hcount]
  have hle := Machine.le_capacity_of_entries hentries
  rw [Machine.eq_of_entries hentries hsize] at hle
  exact ⟨rfl, hle⟩

/-- Rows that are joined are all of one length, so there are as many entries as that length times
the rows, and those from before. -/
theorem size_of_joinRows {cols i : Nat} {rows : List (List α)} {data data' : Array α}
    (h : joinRows cols i rows data = .ok data') : data'.size = data.size + rows.length * cols := by
  induction rows generalizing i data with
  | nil =>
    cases h
    rw [List.length_nil, Nat.zero_mul, Nat.add_zero]
  | cons row rows ih =>
    unfold joinRows at h
    split at h
    · cases h
    · next hrow =>
      rw [not_not] at hrow
      have hlength : row.toArray.size = cols := hrow
      have hjoined : (data ++ row.toArray).size = data.size + cols := by
        rw [Array.size_append, hlength]
      rw [ih h, hjoined, List.length_cons, Nat.succ_mul, Nat.add_assoc, Nat.add_comm cols]

/-- Nested rows that are joined are all of one length, so they hold as many entries as their number
times that length. -/
theorem sized_ofRows {rows : List (List α)} {A : StoredMatrix α}
    (h : ofRows machine rows = .ok A) : A.Sized machine := by
  intro hsize
  obtain ⟨size, hentries, hrest⟩ := bind_eq_ok_iff.mp h
  obtain ⟨data, hdata, hA⟩ := bind_eq_ok_iff.mp hrest
  cases hA
  have hcount := size_of_joinRows (mapError_eq_ok_iff.mp hdata)
  have hle := Machine.le_capacity_of_entries hentries
  rw [Machine.eq_of_entries hentries hsize] at hle
  rw [Array.size_empty, Nat.zero_add] at hcount
  rw [hcount]
  exact ⟨rfl, hle⟩

/-- Data that is read in is compared with the product itself, if that is small enough. If it is not,
nothing is promised of the size. -/
theorem sized_ofData {rows cols : Nat} {data : Array α} {A : StoredMatrix α}
    (hcapacity : data.size ≤ machine.capacity) (h : ofData rows cols data = .ok A) :
    A.Sized machine := by
  unfold ofData at h
  split at h
  · next hdata =>
    cases h
    intro hsize
    rw [expectedSize, if_pos hsize] at hdata
    exact ⟨hdata, hcapacity⟩
  · exact nomatch h

/-- Changing entries changes neither their number nor the dimensions. -/
theorem Sized.map {A : StoredMatrix α} (h : A.Sized machine) (f : α → β) :
    (A.map f).Sized machine := by
  have hdata : (A.map f).data.size = A.data.size := Array.size_map
  intro hsize
  rw [hdata]
  exact h hsize

/-! ## Data that is changed in place -/

/-- The same dimensions, and as many entries. -/
structure SameSize (A B : StoredMatrix α) : Prop where
  rows_eq : B.rows = A.rows
  cols_eq : B.cols = A.cols
  size_eq : B.data.size = A.data.size

theorem SameSize.refl (A : StoredMatrix α) : SameSize A A := ⟨rfl, rfl, rfl⟩

theorem SameSize.trans {A B C : StoredMatrix α} (hAB : SameSize A B) (hBC : SameSize B C) :
    SameSize A C where
  rows_eq := hBC.rows_eq.trans hAB.rows_eq
  cols_eq := hBC.cols_eq.trans hAB.cols_eq
  size_eq := hBC.size_eq.trans hAB.size_eq

/-- Being sized depends on the dimensions and the number of entries alone. -/
theorem Sized.of_sameSize {A B : StoredMatrix α} (h : A.Sized machine) (hAB : SameSize A B) :
    B.Sized machine := by
  intro hsize
  rw [hAB.rows_eq, hAB.cols_eq] at hsize
  rw [hAB.rows_eq, hAB.cols_eq, hAB.size_eq]
  exact h hsize

/-- An entry that is changed leaves the size as it is, whatever the machine makes of its position.
-/
theorem sameSize_of_set {A B : StoredMatrix α} {i j : Nat} {x : α}
    (h : A.set machine i j x = .ok B) : SameSize A B := by
  unfold set at h
  split at h
  · obtain ⟨position, -, hset⟩ := bind_eq_ok_iff.mp h
    split at hset
    · next hlt =>
      cases hset
      exact ⟨rfl, rfl, A.data.size_set hlt⟩
    · exact nomatch hset
  · exact nomatch h

/-- The inner loop of a product only sets entries. -/
theorem sameSize_of_addMultiple {w : Weights α} {B sums sums' : StoredMatrix α} {a : α} {k i : Nat}
    (h : B.addMultiple machine w a k i sums = .ok sums') : SameSize sums sums' := by
  refine of_foldlM_eq_ok (P := fun _ => SameSize sums) ?_ (.refl sums) h
  intro before j after hbefore hstep
  obtain ⟨b, -, hrest⟩ := bind_eq_ok_iff.mp hstep
  obtain ⟨sum, -, hset⟩ := bind_eq_ok_iff.mp hrest
  exact hbefore.trans (sameSize_of_set hset)

/-- So does the middle loop. -/
theorem sameSize_of_addMultiples {w : Weights α} {A B sums sums' : StoredMatrix α} {i : Nat}
    (h : A.addMultiples machine w B i sums = .ok sums') : SameSize sums sums' := by
  refine of_foldlM_eq_ok (P := fun _ => SameSize sums) ?_ (.refl sums) h
  intro before k after hbefore hstep
  obtain ⟨a, -, hrest⟩ := bind_eq_ok_iff.mp hstep
  exact hbefore.trans (sameSize_of_addMultiple hrest)

/-- A product has the entries that its zeros had. -/
theorem sized_mulUnchecked {w : Weights α} {A B C : StoredMatrix α}
    (h : A.mulUnchecked machine w B = .ok C) : C.Sized machine := by
  obtain ⟨sums, hzero, hloop⟩ := bind_eq_ok_iff.mp h
  have hsame : SameSize sums C := by
    refine of_foldlM_eq_ok (P := fun _ => SameSize sums) ?_ (.refl sums) hloop
    intro before i after hbefore hstep
    exact hbefore.trans (sameSize_of_addMultiples hstep)
  exact (sized_filled hzero).of_sameSize hsame

/-! ## Operations on whole matrices -/

/-- A product that passed the check of the shapes is sized. -/
theorem sized_mul {w : Weights α} {A B C : StoredMatrix α} (h : A.mul machine w B = .ok C) :
    C.Sized machine := by
  unfold mul at h
  split at h
  · exact sized_mulUnchecked h
  · exact nomatch h

/-- A sum has as many entries as the term that has fewer, and both have all or none is missed. -/
theorem Sized.add {w : Weights α} {A B C : StoredMatrix α} (hA : A.Sized machine)
    (hB : B.Sized machine) (h : A.add w B = .ok C) : C.Sized machine := by
  unfold StoredMatrix.add at h
  split at h
  · next hshape =>
    obtain ⟨hrows, hcols⟩ := Shape.mk.inj hshape
    cases h
    intro hsize
    obtain ⟨hsizeA, hcapacity⟩ := hA hsize
    have hsize' : B.rows * B.cols < UInt64.size := by
      rw [← hrows, ← hcols]
      exact hsize
    obtain ⟨hsizeB, -⟩ := hB hsize'
    -- both terms have one shape, and neither of them misses an entry.
    have hmin : (Array.zipWith w.add A.data B.data).size = A.rows * A.cols := by
      rw [Array.size_zipWith, hsizeA, hsizeB, ← hrows, ← hcols, Nat.min_self]
    refine ⟨hmin, ?_⟩
    show (Array.zipWith w.add A.data B.data).size ≤ machine.capacity
    rw [hmin, ← hsizeA]
    exact hcapacity
  · exact nomatch h

/-- The dimensions of a Kronecker product may be wrong, but its entries are as many as they say. -/
theorem sized_kron {w : Weights α} {A B C : StoredMatrix α} (h : A.kron machine w B = .ok C) :
    C.Sized machine := by
  obtain ⟨rows, -, hrest⟩ := bind_eq_ok_iff.mp h
  obtain ⟨cols, -, hfn⟩ := bind_eq_ok_iff.mp hrest
  exact sized_fromFn hfn

/-- The accumulator of a power is the given one or a product. The induction follows the exponent as
it is halved. -/
theorem Sized.mulPow {w : Weights α} {acc base C : StoredMatrix α} {k : Nat}
    (hacc : acc.Sized machine) (h : mulPow machine w acc base k = .ok C) : C.Sized machine := by
  induction k using Nat.strongRecOn generalizing acc base with
  | ind k ih =>
    -- what comes after the factor that an odd `k` takes out.
    have hrest (hpos : k ≠ 0) {acc : StoredMatrix α} (hacc : acc.Sized machine)
        (h : (if k / 2 = 0 then Except.ok acc
          else do
            let base ← base.mulUnchecked machine w base
            StoredMatrix.mulPow machine w acc base (k / 2)) = .ok C) : C.Sized machine := by
      split at h
      · cases h
        exact hacc
      · obtain ⟨square, -, hpow⟩ := bind_eq_ok_iff.mp h
        exact ih (k / 2) (Nat.div_lt_self (Nat.pos_of_ne_zero hpos) Nat.one_lt_two) hacc hpow
    unfold StoredMatrix.mulPow at h
    split at h
    · cases h
      exact hacc
    · next hpos =>
      dsimp only at h
      split at h
      · obtain ⟨acc', hfactor, h⟩ := bind_eq_ok_iff.mp h
        exact hrest hpos (sized_mulUnchecked hfactor) h
      · exact hrest hpos hacc h

/-- A power is the identity or a product. -/
theorem sized_pow {w : Weights α} {A B : StoredMatrix α} {k : Nat}
    (h : A.pow machine w k = .ok B) : B.Sized machine := by
  unfold pow at h
  split at h
  · obtain ⟨acc, hidentity, hpow⟩ := bind_eq_ok_iff.mp h
    exact (sized_fromFn hidentity).mulPow hpow
  · exact nomatch h

/-- The total of a star is the given one or a sum. The induction is on the number of steps. -/
theorem Sized.addPowers {w : Weights α} {A total power C : StoredMatrix α} {steps : Nat}
    (htotal : total.Sized machine) (h : A.addPowers machine w steps total power = .ok C) :
    C.Sized machine := by
  induction steps generalizing total power with
  | zero =>
    cases h
    exact htotal
  | succ steps ih =>
    obtain ⟨next, hmul, hrest⟩ := bind_eq_ok_iff.mp h
    obtain ⟨sum, hadd, hsteps⟩ := bind_eq_ok_iff.mp hrest
    exact ih (htotal.add (sized_mulUnchecked hmul) hadd) hsteps

/-- A star is the identity or a sum. -/
theorem sized_boundedStar {w : Weights α} {A B : StoredMatrix α} {len : Nat}
    (h : A.boundedStar machine w len = .ok B) : B.Sized machine := by
  unfold boundedStar at h
  split at h
  · obtain ⟨acc, hidentity, hsteps⟩ := bind_eq_ok_iff.mp h
    exact (sized_fromFn hidentity).addPowers hsteps
  · exact nomatch h

/-! ## The invariant -/

/-- **However a matrix comes about, it is sized.** The induction is on how it was made, with a lemma
for each operation. Nothing is asked of the matrices that it was made from: an operation that has a
result has allocated the entries for it. -/
theorem Built.sized {A : StoredMatrix α} (h : A.Built machine) : A.Sized machine := by
  induction h with
  | ofRows hrows => exact sized_ofRows hrows
  | filled hfilled => exact sized_filled hfilled
  | fromFn hfn => exact sized_fromFn hfn
  | zero hzero => exact sized_filled hzero
  | identity hidentity => exact sized_fromFn hidentity
  | diagonal hdiagonal => exact sized_fromFn hdiagonal
  | ofData hcapacity hdata => exact sized_ofData hcapacity hdata
  | map f _ ih => exact ih.map f
  | transpose _ htranspose => exact sized_fromFn htranspose
  | mul _ _ hmul => exact sized_mul hmul
  | add _ _ hadd ihA ihB => exact ihA.add ihB hadd
  | kron _ _ hkron => exact sized_kron hkron
  | pow _ hpow => exact sized_pow hpow
  | boundedStar _ hstar => exact sized_boundedStar hstar
  | set _ hset ih => exact ih.of_sameSize (sameSize_of_set hset)

/-- A matrix whose dimensions and number of entries are numbers of 64 bits is all there. -/
theorem Built.whole {A : StoredMatrix α} (h : A.Built machine) (hrows : A.rows < UInt64.size)
    (hcols : A.cols < UInt64.size) (hsize : A.rows * A.cols < UInt64.size) : A.Whole machine := by
  obtain ⟨hdata, hcapacity⟩ := h.sized hsize
  have hholds : A.rows * A.cols ≤ machine.capacity := by
    rw [← hdata]
    exact hcapacity
  exact ⟨⟨hrows, hcols, hholds⟩, hdata⟩

end PathSum.StoredMatrix
