import PathSum.AnyMatrix.Stored
import PathSum.Weights.FixedWidth
import PathSum.Weights.Floating

/-!
# Graphs as matrices

The matrix of a graph given by its edges. Vertices are numbered from zero; an edge between vertices
that do not exist is an error, and the first such vertex is reported, the source of an edge before
its target.

`Graph.ofEdges` makes a matrix of known shape, for any number of vertices. `Graph.storedOfEdges` is
the same loop over a stored matrix, whose size and positions a machine computes, before it looks at
any edge. `PathSum.Proofs.Graph.Storage` says for which numbers of vertices the two agree, and what
becomes of the others.
-/

namespace PathSum.Graph

variable {α β : Type}

def vertex (n i : Nat) : Except ShapeError (Fin n) :=
  if h : i < n then .ok ⟨i, h⟩ else .error (.indexOutOfBounds i n)

structure Edge (β : Type) where
  source : Nat
  target : Nat
  label : β

/-- Lets an edge change its entry. Both vertices are looked up first, the source before the target.
-/
def addEdge {n : Nat} (join : α → β → α) (A : Matrix α n n) (edge : Edge β) :
    Except ShapeError (Matrix α n n) := do
  let i ← vertex n edge.source
  let j ← vertex n edge.target
  return A.set i j (join (A.entry i j) edge.label)

/-- The matrix that starts with `absent` everywhere and is changed by one edge after the other. -/
def ofEdges (n : Nat) (absent : α) (join : α → β → α) (edges : List (Edge β)) :
    Except ShapeError (Matrix α n n) :=
  edges.foldlM (addEdge join) (.filled n n absent)

/-- Which vertices are joined by an edge. -/
def adjacency (n : Nat) (edges : List (Edge Unit)) : Except ShapeError (Matrix Bool n n) :=
  ofEdges n false (fun _ _ => true) edges

/-- How many edges join two vertices, up to the largest value. -/
def multiplicity (n : Nat) (edges : List (Edge Unit)) : Except ShapeError (Matrix UInt64 n n) :=
  ofEdges n 0 (fun count _ => saturatingAdd count 1) edges

/-- How long the shortest edge between two vertices is. -/
def lengths (n : Nat) (edges : List (Edge Float)) : Except ShapeError (Matrix Float n n) :=
  ofEdges n infinity lesser edges

/-! ## As they are stored -/

/-- Lets an edge change its entry in a stored matrix with `n` vertices. -/
def storeEdge (m : Machine) (n : Nat) (join : α → β → α) (A : StoredMatrix α) (edge : Edge β) :
    Except MatrixFault (StoredMatrix α) := do
  let i ← (vertex n edge.source).mapError .shape
  let j ← (vertex n edge.target).mapError .shape
  let x ← A.index m i j
  A.set m i j (join x edge.label)

/-- The stored matrix that starts with `absent` everywhere. It is made before the first edge is
looked at, so if there are too many vertices for it, then no vertex is ever reported. -/
def storedOfEdges (m : Machine) (n : Nat) (absent : α) (join : α → β → α) (edges : List (Edge β)) :
    Except MatrixFault (StoredMatrix α) := do
  let A ← StoredMatrix.filled m n n absent
  edges.foldlM (storeEdge m n join) A

def storedAdjacency (m : Machine) (n : Nat) (edges : List (Edge Unit)) :
    Except MatrixFault (StoredMatrix Bool) :=
  storedOfEdges m n false (fun _ _ => true) edges

def storedMultiplicity (m : Machine) (n : Nat) (edges : List (Edge Unit)) :
    Except MatrixFault (StoredMatrix UInt64) :=
  storedOfEdges m n 0 (fun count _ => saturatingAdd count 1) edges

def storedLengths (m : Machine) (n : Nat) (edges : List (Edge Float)) :
    Except MatrixFault (StoredMatrix Float) :=
  storedOfEdges m n infinity lesser edges

/-! ## Edges that are known to fit -/

/-- Marks an edge between vertices below `n`; other edges are left out. -/
def mark {n : Nat} (A : Matrix Bool n n) (edge : Nat × Nat) : Matrix Bool n n :=
  if h : edge.1 < n ∧ edge.2 < n then A.set ⟨edge.1, h.1⟩ ⟨edge.2, h.2⟩ true else A

/-- The pairs of vertices below `n` that are in the list. -/
def relation (n : Nat) (edges : List (Nat × Nat)) : Matrix Bool n n :=
  edges.foldl mark (.filled n n false)

theorem entry_mark {n : Nat} (A : Matrix Bool n n) (edge : Nat × Nat) (i j : Fin n) :
    (mark A edge).entry i j = (A.entry i j || decide (edge = (i.val, j.val))) := by
  obtain ⟨s, t⟩ := edge
  simp only [mark]
  split
  · next h =>
    rw [Matrix.entry_set]
    -- only the pair that the edge names is marked anew.
    by_cases hij : i = ⟨s, h.1⟩ ∧ j = ⟨t, h.2⟩
    · simp [hij]
    · have hne : ¬ (s, t) = (i.val, j.val) := by
        intro heq
        cases heq
        exact hij ⟨rfl, rfl⟩
      rw [if_neg hij, decide_eq_false hne, Bool.or_false]
  · next h =>
    have hne : ¬ (s, t) = (i.val, j.val) := by
      intro heq
      cases heq
      exact h ⟨i.isLt, j.isLt⟩
    rw [decide_eq_false hne, Bool.or_false]

/-- The relation holds for exactly the pairs in the list, however often they are listed. Pairs with
a vertex that is not there have no entry. -/
theorem entry_relation {n : Nat} (edges : List (Nat × Nat)) (i j : Fin n) :
    (relation n edges).entry i j = decide ((i.val, j.val) ∈ edges) := by
  have hfold : ∀ (edges : List (Nat × Nat)) (A : Matrix Bool n n),
      (edges.foldl mark A).entry i j = (A.entry i j || decide ((i.val, j.val) ∈ edges)) := by
    intro edges
    induction edges with
    | nil => intro A; simp
    | cons edge edges ih =>
      intro A
      rw [List.foldl_cons, ih, entry_mark, Bool.or_assoc]
      congr 1
      by_cases h : edge = (i.val, j.val)
      · simp [h]
      · have hne : ¬ (i.val, j.val) = edge := fun heq => h heq.symm
        rw [decide_eq_false h, Bool.false_or]
        simp only [List.mem_cons, hne, false_or]
  rw [relation, hfold, Matrix.entry_filled, Bool.false_or]

end PathSum.Graph
