import PathSum.AnyMatrix.Arithmetic
import PathSum.Graph.Relations
import PathSum.Weights.FixedWidth
import PathSum.Weights.Floating

/-!
# Walks of bounded length

Counting walks, finding what they reach, and finding the shortest: sums over walks with three kinds
of weights. Only a square matrix is the matrix of a graph, and for a matrix of any shape each
operation checks this first.
-/

namespace PathSum

namespace Graph

variable {n : Nat}

/-- How many walks of exactly `len` edges there are, up to the largest value. -/
def countWalks (A : Matrix UInt64 n n) (len : Nat) : Matrix UInt64 n n :=
  A.pow .counting len

/-- Whether there is a walk of at most `len` edges. -/
def reachableWithin (A : Matrix Bool n n) (len : Nat) : Matrix Bool n n :=
  A.boundedStar .boolean len

/-- How long the shortest walk of at most `len` edges is. -/
def shortestWithin (A : Matrix Float n n) (len : Nat) : Matrix Float n n :=
  A.boundedStar .minPlus len

end Graph

/-! ## Matrices of any shape -/

namespace AnyMatrix

def countWalks (A : AnyMatrix UInt64) (len : Nat) : Except ShapeError (AnyMatrix UInt64) :=
  A.square.map fun M => of (Graph.countWalks M len)

def reachableWithin (A : AnyMatrix Bool) (len : Nat) : Except ShapeError (AnyMatrix Bool) :=
  A.square.map fun M => of (Graph.reachableWithin M len)

def shortestWithin (A : AnyMatrix Float) (len : Nat) : Except ShapeError (AnyMatrix Float) :=
  A.square.map fun M => of (Graph.shortestWithin M len)

/-- Whether there is a walk of at least one edge or, if `reflexive`, of any number of edges. -/
def transitiveClosure (A : AnyMatrix Bool) (reflexive : Bool) :
    Except ShapeError (AnyMatrix Bool) :=
  A.square.map fun M => of (Graph.transitiveClosure M reflexive)

theorem countWalks_of {n : Nat} (A : Matrix UInt64 n n) (len : Nat) :
    (of A).countWalks len = .ok (of (Graph.countWalks A len)) := by
  rw [countWalks, square_of]
  rfl

theorem reachableWithin_of {n : Nat} (A : Matrix Bool n n) (len : Nat) :
    (of A).reachableWithin len = .ok (of (Graph.reachableWithin A len)) := by
  rw [reachableWithin, square_of]
  rfl

theorem shortestWithin_of {n : Nat} (A : Matrix Float n n) (len : Nat) :
    (of A).shortestWithin len = .ok (of (Graph.shortestWithin A len)) := by
  rw [shortestWithin, square_of]
  rfl

theorem transitiveClosure_of {n : Nat} (A : Matrix Bool n n) (reflexive : Bool) :
    (of A).transitiveClosure reflexive = .ok (of (Graph.transitiveClosure A reflexive)) := by
  rw [transitiveClosure, square_of]
  rfl

end AnyMatrix

end PathSum
