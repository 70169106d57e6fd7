import PathSum.HiddenMarkov.Basic
import PathSum.Matrix.Paths

/-!
# Hidden sequences of states

What the weight of a sequence of symbols means: the sum over all sequences of states that may have
been gone through while the symbols were shown.
-/

namespace PathSum.HiddenMarkov

variable {σ α : Type}

/-- The emission matrices of the symbols of a word, or the error for the first symbol that has
none. -/
def matrices [DecidableEq σ] (H : HiddenMarkov σ α) (word : List σ) :
    Except (LookupError σ) (List (Matrix α H.size H.size)) :=
  word.mapM H.emission.lookup

/-- `x` times the weights met from state `i` on. A step shows its symbol in the state that it leaves
and then goes to the next. -/
def along (H : HiddenMarkov σ α) (x : α) (i : Fin H.size) :
    List (Matrix α H.size H.size × Fin H.size) → α
  | [] => x
  | (E, j) :: rest =>
    H.along (H.weights.mul (H.weights.mul x (E.entry i i)) (H.transition.entry i j)) j rest

/-- The weight of going through the states `start` and `rest`. Where no weights of ending are set,
the last state adds no factor. -/
def runWeight (H : HiddenMarkov σ α) (shown : List (Matrix α H.size H.size)) (start : Fin H.size)
    (rest : List (Fin H.size)) : α :=
  let x := H.along (H.initial.get start) start (shown.zip rest)
  match H.final with
  | some final => H.weights.mul x (final.get (rest.getLastD start))
  | none => x

/-- The sum of the weights of all sequences of states. -/
def pathSum (H : HiddenMarkov σ α) (shown : List (Matrix α H.size H.size)) : α :=
  H.weights.sum ((routes H.size shown.length).map fun (start, rest) => H.runWeight shown start rest)

end PathSum.HiddenMarkov
