import PathSum.Loop
import PathSum.Matrix.Arithmetic
import PathSum.StateSet

/-!
# Relations between vertices

A Boolean matrix is a relation between the vertices of a graph. Here the vertices that are related
to a vertex are kept as a set, so that many of them are put together at a time.

For the transitive closure one vertex after the other is allowed as a stop on the way: whoever
reaches it then also reaches all that it reaches. Two relations are composed by following first an
edge of the one and then an edge of the other.

Main statement: composition is the product of Boolean matrices (`compose_eq_mul`). That the loop of
the transitive closure ends with the walks of a graph is proved in
`PathSum.Proofs.Graph.Reachability`.
-/

namespace PathSum.Graph

variable {n : Nat}

/-! ## Transitive closure -/

/-- For each vertex the targets of its edges, and also the vertex itself if `reflexive`. -/
def successors (A : Matrix Bool n n) (reflexive : Bool) : Vector StateSet n :=
  Vector.ofFn fun i =>
    let row := StateSet.ofFlags (A.row i).toList
    if reflexive then row.insert i else row

/-- Allows vertex `k` as a stop. -/
def allowStop (reach : Vector StateSet n) (k : Fin n) : Vector StateSet n :=
  let beyond := reach.get k
  reach.map fun row => if row.contains k then row.union beyond else row

/-- The pairs of vertices with a walk of at least one edge from the first to the second, and, if
`reflexive`, the pairs of equal vertices. -/
def transitiveClosure (A : Matrix Bool n n) (reflexive : Bool) : Matrix Bool n n :=
  let reach := Fin.foldl n allowStop (successors A reflexive)
  .ofFn fun i j => (reach.get i).contains j

/-! ## Composition -/

/-- All that is reached by an edge from a member of a set. -/
def follow (next : Vector StateSet n) (set : StateSet) : StateSet :=
  Fin.foldl n (fun reach (k : Fin n) =>
    if set.contains k then reach.union (next.get k) else reach) (.empty n)

/-- The pairs of vertices that are joined by an edge of `A` followed by an edge of `B`. -/
def compose (A B : Matrix Bool n n) : Matrix Bool n n :=
  let next := successors B false
  let reach := (successors A false).map (follow next)
  .ofFn fun i j => (reach.get i).contains j

theorem contains_successors (A : Matrix Bool n n) (i j : Fin n) :
    ((successors A false).get i).contains j = A.entry i j := by
  simp only [successors, get_ofFn, Bool.false_eq_true, if_false, StateSet.contains_ofFlags,
    List.getD_eq_getElem?_getD, Vector.getElem?_toList, Matrix.row]
  rw [Vector.getElem?_eq_getElem j.isLt, Option.getD_some, Vector.getElem_ofFn]

theorem contains_follow (next : Vector StateSet n) (set : StateSet) (state : Nat) :
    (follow next set).contains state =
      Weights.boolean.sumOver n fun k => set.contains k && (next.get k).contains state := by
  -- membership is followed through the loop that builds the set.
  rw [follow, foldl_seen (StateSet.contains · state) (fun found k =>
    found || (set.contains k && (next.get k).contains state)), StateSet.contains_empty]
  · rfl
  · intro reach k
    cases h : set.contains k <;> simp

/-- To compose two relations is to multiply their matrices. -/
theorem compose_eq_mul (A B : Matrix Bool n n) : compose A B = A.mul .boolean B := by
  apply Matrix.ext_entry
  intro i j
  simp only [compose, Matrix.entry_ofFn, get_map, contains_follow, contains_successors,
    Matrix.entry_mul]
  rfl

end PathSum.Graph
