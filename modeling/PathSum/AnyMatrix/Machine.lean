import PathSum.AnyMatrix.Basic
import PathSum.Result

/-!
# Sizes in 64 bits

The dimensions of a stored matrix, the number of its entries and the positions in its data are
numbers of 64 bits. Products of dimensions are computed without a check, so they may be too large
for that. What happens then depends on how the program is built: the product is reduced modulo
`2 ^ 64`, or the program stops. And no array takes more room than the machine can address.

A `Machine` is a choice of both. Every operation that computes a size or a position, or asks for an
array, takes one, so what is proved about the operation holds for every way to build the program.

* `Machine.word_of_lt`: a number that 64 bits can hold is computed as it is.
* `Machine.eq_mod_of_word`: whatever is computed is right modulo `2 ^ 64`, however it is built.
* `Machine.Holds`: the shapes that a machine can hold. For them the number of entries
  (`Holds.entries_eq_ok`) and the position of each entry (`Holds.word_position`) are computed as
  they are.
* `Machine.eq_of_entries`: if the true number of entries is below `2 ^ 64`, an array that was made
  has exactly so many; `Machine.entries_ne_ok`: when there is no array, however it is built.
-/

namespace PathSum

/-- What keeps an operation on stored matrices from having a result. The first two are errors that a
caller is told about; the others end the program, and the laws about stored matrices say when none
of them comes up. -/
inductive MatrixFault where
  /-- The operands do not go together. -/
  | shape (e : ShapeError)
  /-- There is no such row or column. -/
  | outOfRange (e : OutOfRange)
  /-- The data ends before this position. -/
  | pastData (position : Nat)
  /-- There are no consecutive positions in the data from the first up to before the second. -/
  | noSlice (first past : Nat)
  /-- 64 bits cannot hold this number. -/
  | overflow (n : Nat)
  /-- There is no array of this size. -/
  | tooLarge (size : Nat)
deriving DecidableEq

/-- What becomes of a sum or a product that 64 bits cannot hold. A program is built for one or the
other, and keeps to it. -/
inductive Overflow where
  /-- It is reduced modulo `2 ^ 64`, and the program goes on. -/
  | wraps
  /-- The program stops. -/
  | stops
deriving DecidableEq, Repr

/-- How a program is built, and the largest arrays that it can ask for. -/
structure Machine where
  overflow : Overflow
  /-- The largest number of entries in an array. -/
  capacity : Nat
  /-- The largest number of rows in a nested array. A row takes other room than an entry. -/
  rowCapacity : Nat
  capacity_lt : capacity < UInt64.size

namespace Machine

/-- A machine whose arrays take at most `2 ^ 63 - 1` bytes, for entries of so many bytes each. A
nested row is kept as its place and two sizes, eight bytes each. -/
def ofEntryBytes (overflow : Overflow) (bytes : Nat) : Machine where
  overflow := overflow
  capacity := (UInt64.size / 2 - 1) / bytes
  rowCapacity := (UInt64.size / 2 - 1) / 24
  capacity_lt := Nat.lt_of_le_of_lt (Nat.div_le_self ..) (by decide)

/-- A sum or a product, as the machine computes it. Nothing but its size decides what happens, not
what it is a size or a position of. -/
def word (m : Machine) (n : Nat) : Except MatrixFault Nat :=
  if n < UInt64.size then .ok n
  else
    match m.overflow with
    | .wraps => .ok (n % UInt64.size)
    | .stops => .error (.overflow n)

/-- Asks for an array that takes up to `capacity` of what is put into it. -/
def request (capacity size : Nat) : Except MatrixFault Unit :=
  if size ≤ capacity then .ok () else .error (.tooLarge size)

/-- The number of entries of a new array for a matrix. It is computed first, and then an array of
that size is asked for. -/
def entries (m : Machine) (rows cols : Nat) : Except MatrixFault Nat := do
  let size ← m.word (rows * cols)
  request m.capacity size
  return size

/-- The shapes that a machine can hold: each dimension is a number of 64 bits, and an array can have
as many entries as there are pairs of a row and a column. -/
structure Holds (m : Machine) (rows cols : Nat) : Prop where
  rows_lt : rows < UInt64.size
  cols_lt : cols < UInt64.size
  size_le : rows * cols ≤ m.capacity

/-- Whether a shape fits is three comparisons, so for a given shape on a given machine it can be
evaluated. -/
instance (m : Machine) (rows cols : Nat) : Decidable (m.Holds rows cols) :=
  decidable_of_iff (rows < UInt64.size ∧ cols < UInt64.size ∧ rows * cols ≤ m.capacity)
    ⟨fun ⟨hrows, hcols, hsize⟩ => ⟨hrows, hcols, hsize⟩,
      fun ⟨hrows, hcols, hsize⟩ => ⟨hrows, hcols, hsize⟩⟩

variable {m : Machine} {rows cols n k : Nat}

/-! ## Numbers -/

/-- However the program is built, a number that 64 bits can hold is computed as it is. Most proofs
about stored matrices know no more of a machine than this. -/
theorem word_of_lt (h : n < UInt64.size) : m.word n = .ok n :=
  if_pos h

/-- A machine that goes on computes modulo `2 ^ 64`, and one that stops never gets this far with a
number that is too large. -/
theorem eq_mod_of_word (h : m.word n = .ok k) : k = n % UInt64.size := by
  unfold word at h
  split at h
  · next hlt =>
    cases h
    exact (Nat.mod_eq_of_lt hlt).symm
  · split at h
    · cases h
      rfl
    · exact nomatch h

/-- A number that is too large ends a program that stops at it. -/
theorem word_of_stops (hm : m.overflow = .stops) (h : UInt64.size ≤ n) :
    m.word n = .error (.overflow n) := by
  rw [word, if_neg (Nat.not_lt.mpr h), hm]

/-- A program that goes on keeps what is left of a number modulo `2 ^ 64`. -/
theorem word_of_wraps (hm : m.overflow = .wraps) (n : Nat) : m.word n = .ok (n % UInt64.size) := by
  unfold word
  split
  · next hlt => rw [Nat.mod_eq_of_lt hlt]
  · rw [hm]

/-! ## Arrays -/

theorem request_eq_ok (h : n ≤ k) : request k n = .ok () :=
  if_pos h

/-- An array is made if its size can be computed and what comes out is not too large. What comes out
need not be the number of entries, unless 64 bits can hold that number. -/
theorem entries_eq_ok_iff :
    m.entries rows cols = .ok k ↔ m.word (rows * cols) = .ok k ∧ k ≤ m.capacity := by
  unfold entries
  cases m.word (rows * cols) with
  | error e => exact ⟨nofun, fun h => nomatch h.1⟩
  | ok size =>
    rw [ok_bind, request]
    split
    · next hle =>
      constructor
      · rintro ⟨⟩
        exact ⟨rfl, hle⟩
      · rintro ⟨⟨⟩, -⟩
        rfl
    · next hlarge =>
      refine ⟨nofun, ?_⟩
      rintro ⟨⟨⟩, hle⟩
      exact absurd hle hlarge

/-- However it was made, an array for a matrix has the right number of entries modulo `2 ^ 64`. -/
theorem eq_mod_of_entries (h : m.entries rows cols = .ok k) : k = rows * cols % UInt64.size :=
  eq_mod_of_word (entries_eq_ok_iff.mp h).1

/-- An array that was made has the right number of entries, unless 64 bits cannot hold it. -/
theorem eq_of_entries (h : m.entries rows cols = .ok k) (hsize : rows * cols < UInt64.size) :
    k = rows * cols := by
  rw [eq_mod_of_entries h, Nat.mod_eq_of_lt hsize]

/-- No array is larger than the machine can ask for. -/
theorem le_capacity_of_entries (h : m.entries rows cols = .ok k) : k ≤ m.capacity :=
  (entries_eq_ok_iff.mp h).2

/-- There is no array if what the product comes to is more than the capacity. This covers both ways
to build the program: one stops at the product, the other at the array. -/
theorem entries_ne_ok (hlarge : m.capacity < rows * cols % UInt64.size) :
    m.entries rows cols ≠ .ok k := by
  intro h
  rw [← eq_mod_of_entries h] at hlarge
  exact absurd (le_capacity_of_entries h) (Nat.not_le.mpr hlarge)

/-! ## Shapes that fit -/

namespace Holds

theorem size_lt (h : m.Holds rows cols) : rows * cols < UInt64.size :=
  Nat.lt_of_le_of_lt h.size_le m.capacity_lt

/-- For a shape that is held, the array has one place for each entry. -/
theorem entries_eq_ok (h : m.Holds rows cols) : m.entries rows cols = .ok (rows * cols) :=
  entries_eq_ok_iff.mpr ⟨word_of_lt h.size_lt, h.size_le⟩

/-- A shape without entries is held if its dimensions are numbers of 64 bits. -/
theorem of_empty (hrows : rows < UInt64.size) (hcols : cols < UInt64.size)
    (hempty : rows * cols = 0) : m.Holds rows cols where
  rows_lt := hrows
  cols_lt := hcols
  size_le := hempty ▸ Nat.zero_le _

/-- Where there is a row, an array can have as many entries as a row. -/
theorem cols_le (h : m.Holds rows cols) (hrows : 0 < rows) : cols ≤ m.capacity :=
  Nat.le_trans (Nat.le_mul_of_pos_left cols hrows) h.size_le

/-- A shape that is held is held with rows and columns exchanged. -/
theorem symm (h : m.Holds rows cols) : m.Holds cols rows where
  rows_lt := h.cols_lt
  cols_lt := h.rows_lt
  size_le := Nat.mul_comm rows cols ▸ h.size_le

/-- The position of an entry is computed as it is. -/
theorem word_position (h : m.Holds rows cols) {i j : Nat} (hi : i < rows) (hj : j < cols) :
    m.word (i * cols + j) = .ok (i * cols + j) :=
  word_of_lt (Nat.lt_trans (Index.pair_lt ⟨i, hi⟩ ⟨j, hj⟩) h.size_lt)

end Holds

end Machine

end PathSum
