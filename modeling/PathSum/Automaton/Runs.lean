import PathSum.Automaton.Stored
import PathSum.Matrix.Paths

/-!
# Runs and paths of an automaton

What the weight of a word means: the sum over all runs, each run with the product of the weights
that it meets from its start to its end (`WeightedAutomaton.pathSum`).

With Boolean weights it is enough to know which transitions there are. A path of a stored automaton
(`StoredAutomaton.Path`) reads a word on the way from one state to another, along such transitions.
This says which states a word leads to without any vector or sum: what a path reads, by its first
step (`path_nil_iff`, `path_cons_iff`), and that it ends in a state that there is (`Path.lt_size`).
-/

namespace PathSum

namespace WeightedAutomaton

variable {σ α : Type}

/-- The matrices of the symbols of a word, or the error for the first symbol without one. -/
def matrices [DecidableEq σ] (A : WeightedAutomaton σ α) (word : List σ) :
    Except (LookupError σ) (List (Matrix α A.size A.size)) :=
  word.mapM A.transitions.lookup

/-- The weight of the run that starts in `start` and is in the states `rest` after each symbol. -/
def runWeight (A : WeightedAutomaton σ α) (steps : List (Matrix α A.size A.size))
    (start : Fin A.size) (rest : List (Fin A.size)) : α :=
  A.weights.mul (A.weights.along (A.initial.get start) start (steps.zip rest))
    (A.final.get (rest.getLastD start))

/-- The sum of the weights of all runs. -/
def pathSum (A : WeightedAutomaton σ α) (steps : List (Matrix α A.size A.size)) : α :=
  A.weights.sum ((routes A.size steps.length).map fun (start, rest) => A.runWeight steps start rest)

end WeightedAutomaton

/-! ## Paths -/

namespace StoredAutomaton

variable {σ : Type} [DecidableEq σ]

/-- A word can be read on the way from one state to another. -/
inductive Path (A : StoredAutomaton σ Bool) : Nat → List σ → Nat → Prop where
  | nil {i : Nat} : i < A.size → Path A i [] i
  | cons {i j k : Nat} {s : σ} {word : List σ} {M : AnyMatrix Bool} :
      A.transitions.get? s = some M → M.get? i j = some true → Path A j word k →
        Path A i (s :: word) k

variable {A : StoredAutomaton σ Bool} {i k : Nat} {s : σ} {word : List σ} {M : AnyMatrix Bool}

theorem path_nil_iff : A.Path i [] k ↔ i < A.size ∧ i = k := by
  constructor
  · intro path
    cases path with
    | nil hi => exact ⟨hi, rfl⟩
  · rintro ⟨hi, rfl⟩
    exact .nil hi

theorem path_cons_iff (known : A.transitions.get? s = some M) :
    A.Path i (s :: word) k ↔ ∃ j, M.get? i j = some true ∧ A.Path j word k := by
  constructor
  · intro path
    cases path with
    | cons known' hedge rest =>
      obtain rfl := Option.some.inj (known.symm.trans known')
      exact ⟨_, hedge, rest⟩
  · rintro ⟨j, hedge, rest⟩
    exact .cons known hedge rest

theorem Path.lt_size (path : A.Path i word k) : k < A.size := by
  induction path with
  | nil hi => exact hi
  | cons _ _ _ ih => exact ih

end StoredAutomaton

end PathSum
