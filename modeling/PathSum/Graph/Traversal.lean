import PathSum.Graph.Adjacency
import PathSum.Matrix.Paths

/-!
# Walks, edge by edge

What the walks of a graph are: steps along true entries of its matrix, or sequences of the edges
that it was given by. Edges that are listed twice are two edges.
-/

namespace PathSum.Graph

variable {n : Nat}

/-- There is a walk of `len` edges from one vertex to another. -/
inductive Walk (A : Matrix Bool n n) : (len : Nat) → Fin n → Fin n → Prop where
  | nil (i : Fin n) : Walk A 0 i i
  | cons {len : Nat} {i j k : Fin n} : A.entry i j = true → Walk A len j k → Walk A (len + 1) i k

namespace Walk

variable {A : Matrix Bool n n} {len len' : Nat} {i j k : Fin n}

/-- One walk can be continued by another. -/
theorem append (first : Walk A len i j) (second : Walk A len' j k) : Walk A (len' + len) i k := by
  induction first with
  | nil => exact second
  | cons edge _ ih => exact .cons edge (ih second)

@[simp]
theorem zero_iff : Walk A 0 i j ↔ i = j := by
  constructor
  · intro h
    cases h
    rfl
  · rintro rfl
    exact .nil i

/-- A walk that is not over yet starts with an edge. -/
theorem succ_iff : Walk A (len + 1) i k ↔ ∃ j, A.entry i j = true ∧ Walk A len j k := by
  constructor
  · intro h
    cases h with
    | cons edge rest => exact ⟨_, edge, rest⟩
  · rintro ⟨j, edge, rest⟩
    exact .cons edge rest

end Walk

/-! ## Counting -/

/-- Whether a sequence of edges leads from one vertex to another. -/
def leads (edges : List (Edge Unit)) : Nat → List (Fin edges.length) → Nat → Bool
  | i, [], j => i == j
  | i, e :: rest, j => (edges.get e).source == i && leads edges (edges.get e).target rest j

/-- How many sequences of `len` edges lead from one vertex to another. -/
def walkCount (edges : List (Edge Unit)) (len i j : Nat) : Nat :=
  (sequences edges.length len).countP fun walk => leads edges i walk j

end PathSum.Graph
