import PathSum.Graph.Adjacency
import PathSum.Proofs.Matrix.Storage
import PathSum.Proofs.Shapes.Sizes

/-!
# Graphs as stored matrices

A stored matrix of a graph has room for an entry for every pair of vertices, and it is made before
any edge is looked at. As long as the machine holds so many entries, edge after edge does to it what
it does to the matrix of known shape, and the same vertex is reported if there is one to report.

* `storedOfEdges_eq`: the two loops agree if the machine holds the shape. What is proved of
  `Graph.adjacency`, `Graph.multiplicity` and `Graph.lengths` is so proved of the stored matrices.
* `storedOfEdges_eq_error_of_stops`, `storedOfEdges_eq_error_of_capacity`: with too many vertices
  nothing is made, whatever the edges are, even if one of them has a vertex that does not exist.
* `storedOfEdges_incomplete`: from `2 ^ 32` vertices on no result has all its entries, however the
  program is built.
-/

namespace PathSum.Graph

variable {α β : Type} {machine : Machine} {n : Nat} {absent : α} {join : α → β → α}
  {edges : List (Edge β)}

/-! ## Shapes that the machine holds -/

/-- An edge changes the stored entry that it changes in the matrix of known shape, and both look at
its source before its target. -/
theorem storeEdge_stored (hn : machine.Holds n n) (A : Matrix α n n) (edge : Edge β) :
    storeEdge machine n join A.stored edge =
      ((addEdge join A edge).map Matrix.stored).mapError .shape := by
  rw [storeEdge, addEdge]
  cases vertex n edge.source with
  | error e => rfl
  | ok i =>
    cases vertex n edge.target with
    | error e => rfl
    | ok j =>
      show (A.stored.index machine i j >>= fun x =>
        A.stored.set machine i j (join x edge.label)) = _
      rw [Matrix.index_stored hn, ok_bind, Matrix.set_stored hn]
      rfl

/-- **On a machine that holds the shape, the stored matrix is that of the graph.** It reports the
same vertex, or has the same entries. -/
theorem storedOfEdges_eq (hn : machine.Holds n n) :
    storedOfEdges machine n absent join edges =
      ((ofEdges n absent join edges).map Matrix.stored).mapError .shape := by
  rw [storedOfEdges, Matrix.filled_stored hn, ok_bind, ofEdges]
  exact foldlM_map_mapError (storeEdge_stored hn) (.filled n n absent) edges

theorem storedAdjacency_eq (hn : machine.Holds n n) (edges : List (Edge Unit)) :
    storedAdjacency machine n edges =
      ((adjacency n edges).map Matrix.stored).mapError .shape :=
  storedOfEdges_eq hn

theorem storedMultiplicity_eq (hn : machine.Holds n n) (edges : List (Edge Unit)) :
    storedMultiplicity machine n edges =
      ((multiplicity n edges).map Matrix.stored).mapError .shape :=
  storedOfEdges_eq hn

theorem storedLengths_eq (hn : machine.Holds n n) (edges : List (Edge Float)) :
    storedLengths machine n edges = ((lengths n edges).map Matrix.stored).mapError .shape :=
  storedOfEdges_eq hn

/-! ## Too many vertices -/

/-- A program that stops at an overflow stops before it looks at an edge. -/
theorem storedOfEdges_eq_error_of_stops (hmachine : machine.overflow = .stops)
    (hlarge : UInt64.size ≤ n * n) :
    storedOfEdges machine n absent join edges = .error (.overflow (n * n)) := by
  have hentries : machine.entries n n = .error (.overflow (n * n)) := by
    rw [Machine.entries, Machine.word_of_stops hmachine hlarge]
    rfl
  rw [storedOfEdges, StoredMatrix.filled, hentries]
  rfl

/-- If the number of entries can be computed, but no array has so many, nothing is made either. No
edge is looked at then, not even one that does not fit. -/
theorem storedOfEdges_eq_error_of_capacity (hsize : n * n < UInt64.size)
    (hlarge : machine.capacity < n * n) :
    storedOfEdges machine n absent join edges = .error (.tooLarge (n * n)) := by
  have hrequest : Machine.request machine.capacity (n * n) = .error (.tooLarge (n * n)) :=
    if_neg (Nat.not_le.mpr hlarge)
  have hentries : machine.entries n n = .error (.tooLarge (n * n)) := by
    rw [Machine.entries, Machine.word_of_lt hsize, ok_bind, hrequest]
    rfl
  rw [storedOfEdges, StoredMatrix.filled, hentries]
  rfl

/-- Edges change entries, and never how many there are. So a matrix that has too few in the
beginning has too few in the end. -/
theorem sameSize_of_storeEdges {A B : StoredMatrix α}
    (h : edges.foldlM (storeEdge machine n join) A = .ok B) : StoredMatrix.SameSize A B := by
  induction edges generalizing A with
  | nil =>
    cases h
    exact .refl _
  | cons edge edges ih =>
    rw [List.foldlM_cons] at h
    obtain ⟨C, hedge, hrest⟩ := bind_eq_ok_iff.mp h
    obtain ⟨i, -, htarget⟩ := bind_eq_ok_iff.mp hedge
    obtain ⟨j, -, hread⟩ := bind_eq_ok_iff.mp htarget
    obtain ⟨x, -, hset⟩ := bind_eq_ok_iff.mp hread
    exact (StoredMatrix.sameSize_of_set hset).trans (ih hrest)

/-- **From `2 ^ 32` vertices on no matrix is complete.** Either nothing is made, or the number of
entries was reduced, and then it is no longer that of the pairs of vertices. -/
theorem storedOfEdges_incomplete {A : StoredMatrix α} (hn : 2 ^ 32 ≤ n)
    (h : storedOfEdges machine n absent join edges = .ok A) : A.data.size < n * n := by
  obtain ⟨B, hfilled, hedges⟩ := bind_eq_ok_iff.mp h
  obtain ⟨size, hentries, hB⟩ := bind_eq_ok_iff.mp hfilled
  cases hB
  have hsize : A.data.size = size := by
    rw [(sameSize_of_storeEdges hedges).size_eq]
    exact Array.size_replicate
  have hroom : size < UInt64.size :=
    Nat.lt_of_le_of_lt (Machine.le_capacity_of_entries hentries) machine.capacity_lt
  have hpairs : UInt64.size ≤ n * n := Nat.mul_le_mul hn hn
  rw [hsize]
  exact Nat.lt_of_lt_of_le hroom hpairs

end PathSum.Graph
