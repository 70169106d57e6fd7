import PathSum.Matrix.Basic
import PathSum.Weights.Basic

/-!
# Paths through matrices

A path goes from index to index, one matrix a step, and its weight is the product, from the left,
of the entries that it meets. This is what products of matrices sum over.

Main statements: `sequences` lists every sequence of a given length (`mem_sequences`) and none
twice (`nodup_sequences`), `routes` adds a place to start from (`mem_routes`), and `pathsWithin`
lists those with two ends and a bound, none twice either (`mem_pathsWithin`,
`nodup_pathsWithin`).
-/

namespace PathSum

universe u

/-! ## Sequences of indices -/

/-- All sequences of `len` indices below `n`, those with the smaller first index first. -/
def sequences (n : Nat) : (len : Nat) → List (List (Fin n))
  | 0 => [[]]
  | len + 1 => (List.finRange n).flatMap fun i => (sequences n len).map (i :: ·)

@[simp]
theorem mem_sequences {n len : Nat} {items : List (Fin n)} :
    items ∈ sequences n len ↔ items.length = len := by
  induction len generalizing items with
  | zero => simp [sequences, List.length_eq_zero_iff]
  | succ len ih =>
    cases items with
    | nil => simp [sequences]
    | cons i items => simp [sequences, ih, List.mem_finRange]

theorem nodup_sequences (n len : Nat) : (sequences n len).Nodup := by
  induction len with
  | zero => simp [sequences]
  | succ len ih =>
    rw [sequences, List.nodup_iff_pairwise_ne, List.pairwise_flatMap]
    constructor
    · intro i _
      rw [List.pairwise_map]
      exact ih.imp fun hne heq => hne (List.cons.inj heq).2
    · refine (List.nodup_finRange n).imp ?_
      intro i j hij a ha b hb heq
      obtain ⟨a', _, rfl⟩ := List.mem_map.mp ha
      obtain ⟨b', _, rfl⟩ := List.mem_map.mp hb
      exact hij (List.cons.inj heq).1

/-- All sequences that start somewhere and then take `len` steps. -/
def routes (n len : Nat) : List (Fin n × List (Fin n)) :=
  (List.finRange n).flatMap fun i => (sequences n len).map fun rest => (i, rest)

theorem mem_routes {n len : Nat} {start : Fin n} {rest : List (Fin n)} :
    (start, rest) ∈ routes n len ↔ rest.length = len := by
  simp [routes]

/-! ## From one index to another -/

/-- All sequences of `len` steps that lead from `i` to `j`. -/
def pathsTo (n len : Nat) (i j : Fin n) : List (List (Fin n)) :=
  (sequences n len).filter fun stops => stops.getLastD i = j

/-- All sequences of at most `len` steps that lead from `i` to `j`, the shorter ones first. -/
def pathsWithin (n len : Nat) (i j : Fin n) : List (List (Fin n)) :=
  (List.range (len + 1)).flatMap fun steps => pathsTo n steps i j

section
variable {n len : Nat} {i j : Fin n} {stops : List (Fin n)}

theorem mem_pathsTo : stops ∈ pathsTo n len i j ↔ stops.length = len ∧ stops.getLastD i = j := by
  simp [pathsTo]

theorem mem_pathsWithin :
    stops ∈ pathsWithin n len i j ↔ stops.length ≤ len ∧ stops.getLastD i = j := by
  simp only [pathsWithin, List.mem_flatMap, List.mem_range, mem_pathsTo, Nat.lt_succ_iff]
  constructor
  · rintro ⟨steps, hle, rfl, hlast⟩
    exact ⟨hle, hlast⟩
  · rintro ⟨hle, hlast⟩
    exact ⟨_, hle, rfl, hlast⟩

theorem nodup_pathsWithin (n len : Nat) (i j : Fin n) : (pathsWithin n len i j).Nodup := by
  rw [pathsWithin, List.nodup_iff_pairwise_ne, List.pairwise_flatMap]
  constructor
  · intro steps _
    exact (nodup_sequences n steps).filter _
  · refine List.nodup_range.imp ?_
    intro steps steps' hne a ha b hb heq
    exact hne ((mem_pathsTo.mp ha).1.symm.trans (heq ▸ (mem_pathsTo.mp hb).1))

/-- A path of one more step makes its last step at its end. Before that it is a path of the length
before, to any stop. -/
theorem mem_pathsTo_succ :
    stops ∈ pathsTo n (len + 1) i j ↔ ∃ k, ∃ rest ∈ pathsTo n len i k, stops = rest ++ [j] := by
  constructor
  · intro hstops
    obtain ⟨hlength, hlast⟩ := mem_pathsTo.mp hstops
    obtain rfl | ⟨rest, last, rfl⟩ := List.eq_nil_or_concat stops
    · exact nomatch hlength
    · rw [List.concat_eq_append] at hlength hlast ⊢
      rw [List.getLastD_concat] at hlast
      refine ⟨rest.getLastD i, rest, mem_pathsTo.mpr ⟨?_, rfl⟩, hlast ▸ rfl⟩
      rwa [List.length_append, List.length_singleton, Nat.add_right_cancel_iff] at hlength
  · rintro ⟨k, rest, hrest, rfl⟩
    obtain ⟨rfl, -⟩ := mem_pathsTo.mp hrest
    exact mem_pathsTo.mpr ⟨by simp, by simp⟩

theorem pathsWithin_zero (n : Nat) (i j : Fin n) : pathsWithin n 0 i j = pathsTo n 0 i j := by
  rw [pathsWithin, Nat.zero_add, List.range_one, List.flatMap_singleton]

/-- Another step is taken by the longest paths only. -/
theorem pathsWithin_succ (n len : Nat) (i j : Fin n) :
    pathsWithin n (len + 1) i j = pathsWithin n len i j ++ pathsTo n (len + 1) i j := by
  rw [pathsWithin, List.range_succ, List.flatMap_append, List.flatMap_singleton]
  rfl

end

/-! ## Weights of paths -/

variable {α : Type u} {n : Nat}

/-- `x` times the entries met on the way from `i` through the indices that follow, from the left.
Each index comes with the matrix that leads to it. -/
def Weights.along (w : Weights α) (x : α) (i : Fin n) : List (Matrix α n n × Fin n) → α
  | [] => x
  | (A, j) :: rest => w.along (w.mul x (A.entry i j)) j rest

/-- `x` times the entries of one matrix met on the way from `i` from stop to stop. -/
def Weights.alongStops (w : Weights α) (A : Matrix α n n) (x : α) (i : Fin n)
    (stops : List (Fin n)) : α :=
  w.along x i (stops.map fun stop => (A, stop))

theorem Weights.alongStops_cons (w : Weights α) (A : Matrix α n n) (x : α) (i k : Fin n)
    (stops : List (Fin n)) :
    w.alongStops A x i (k :: stops) = w.alongStops A (w.mul x (A.entry i k)) k stops := rfl

/-- A path that is continued is followed on from its last stop. -/
theorem Weights.alongStops_append (w : Weights α) (A : Matrix α n n) (x : α) (i : Fin n)
    (stops rest : List (Fin n)) :
    w.alongStops A x i (stops ++ rest) =
      w.alongStops A (w.alongStops A x i stops) (stops.getLastD i) rest := by
  induction stops generalizing x i with
  | nil => rfl
  | cons k stops ih =>
    rw [List.cons_append, alongStops_cons, alongStops_cons, ih, List.getLastD_cons]

/-- The weight of the path from `i` that goes from stop to stop through one matrix. -/
def Weights.pathWeight (w : Weights α) (A : Matrix α n n) (i : Fin n) (stops : List (Fin n)) : α :=
  w.alongStops A w.one i stops

/-- The sum over all paths from `i` to `j` that take at most `len` steps through one matrix. -/
def Matrix.pathSumWithin (w : Weights α) (A : Matrix α n n) (len : Nat) (i j : Fin n) : α :=
  w.sum ((pathsWithin n len i j).map (w.pathWeight A i))

end PathSum
