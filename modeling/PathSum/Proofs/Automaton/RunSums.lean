import PathSum.Automaton.Runs
import PathSum.Proofs.Automaton.Forward
import PathSum.Proofs.Matrix.Carrying

/-!
# The weight of a word sums over its runs

The forward pass keeps one weight for each state and takes one step for each symbol, while a word
has a run for every sequence of states. The pass carries weights (`runRule`), so what it ends with
is the sum over all paths (`CarryRule.total_foldl_step_eq_sum_routes`), and these are the runs.

* `along_runRule`: along one path, a weight counts for what the run of that path weighs.
* `dot_foldl_vecMul`: steps through any matrices, closed by the final weights, sum over the runs.
* `exists_matrices_eq_ok`: the forward pass over known symbols is made of such steps.
-/

namespace PathSum.WeightedAutomaton

variable {σ α : Type}

/-! ## The forward pass carries weights -/

/-- Weights are multiplied from the left, at each step and at the end. -/
def runRule (A : WeightedAutomaton σ α) (laws : A.weights.PathLaws) :
    CarryRule A.weights A.size (Matrix α A.size A.size) where
  carry M i j x := A.weights.mul x (M.entry i j)
  finish i x := A.weights.mul x (A.final.get i)
  additive_carry M i j := laws.additive_mul_right (M.entry i j)
  additive_finish i := laws.additive_mul_right (A.final.get i)

variable {A : WeightedAutomaton σ α} {laws : A.weights.PathLaws}

theorem step_runRule : (A.runRule laws).step = Matrix.vecMul A.weights := rfl

theorem total_runRule (v : Vector α A.size) :
    (A.runRule laws).total v = A.weights.dot v A.final := rfl

theorem along_runRule {steps : List (Matrix α A.size A.size)} {stops : List (Fin A.size)}
    (length : stops.length = steps.length) (x : α) (i : Fin A.size) :
    (A.runRule laws).along x i (steps.zip stops) =
      A.weights.mul (A.weights.along x i (steps.zip stops)) (A.final.get (stops.getLastD i)) := by
  induction steps generalizing stops x i with
  | nil =>
    obtain rfl := List.length_eq_zero_iff.mp length
    rfl
  | cons M steps ih =>
    cases stops with
    | nil => exact nomatch length
    | cons j stops =>
      have hrest := ih (Nat.succ.inj length) (A.weights.mul x (M.entry i j)) j
      rw [List.getLastD_cons]
      exact hrest

/-- Steps through one matrix after the other sum over the runs along them. -/
theorem dot_foldl_vecMul (laws : A.weights.PathLaws) (steps : List (Matrix α A.size A.size)) :
    A.weights.dot (steps.foldl (Matrix.vecMul A.weights) A.initial) A.final = A.pathSum steps := by
  have hsum := CarryRule.total_foldl_step_eq_sum_routes (R := A.runRule laws) laws steps A.initial
  rw [step_runRule, total_runRule] at hsum
  rw [hsum, pathSum]
  congr 1
  refine List.map_congr_left fun (start, stops) hroute => ?_
  exact along_runRule (mem_routes.mp hroute) (A.initial.get start) start

/-! ## Words -/

variable [DecidableEq σ] {word : List σ}

/-- Over known symbols the forward pass goes through the matrices of the word. -/
theorem exists_matrices_eq_ok (known : ∀ s ∈ word, s ∈ A.transitions.keys) (v : Vector α A.size) :
    ∃ steps, A.matrices word = .ok steps ∧
      A.forwardFrom v word = .ok (steps.foldl (Matrix.vecMul A.weights) v) := by
  obtain ⟨steps, hsteps⟩ := SymbolMap.exists_mapM_lookup_eq_ok known
  refine ⟨steps, hsteps, ?_⟩
  rw [forwardFrom_eq_map, hsteps]
  rfl

/-- **The weight of a word is the sum over all runs.** Where sums can be taken in any order and go
through products from the right, a word of known symbols weighs what its runs weigh together. The
first symbol that is not known is an error of the forward pass and of the weight. -/
theorem run_exact (A : WeightedAutomaton σ α) (laws : A.weights.PathLaws) (word : List σ) :
    ((∀ s ∈ word, s ∈ A.transitions.keys) →
      ∃ steps, A.matrices word = .ok steps ∧ A.run word = .ok (A.pathSum steps)) ∧
    ∀ symbol, word.find? (· ∉ A.transitions.keys) = some symbol →
      A.forward word = .error ⟨symbol⟩ ∧ A.run word = .error ⟨symbol⟩ := by
  constructor
  · intro known
    obtain ⟨steps, hsteps, hforward⟩ := exists_matrices_eq_ok known A.initial
    refine ⟨steps, hsteps, ?_⟩
    rw [run, forward, hforward, ← dot_foldl_vecMul laws]
    rfl
  · intro symbol first
    have herror : A.forward word = .error ⟨symbol⟩ := forward_eq_error_iff.mpr first
    exact ⟨herror, run_eq_error_iff.mpr herror⟩

/-- Sums of numbers, and products that are neither associative nor commutative. -/
def skewed : Weights Nat where
  zero := 0
  one := 1
  add := (· + ·)
  mul a b := a * (b + 1)
  same := (· == ·)

theorem pathLaws_skewed : skewed.PathLaws where
  add_assoc := Nat.add_assoc
  add_comm := Nat.add_comm
  zero_add := Nat.zero_add
  add_mul a b c := Nat.add_mul a b (c + 1)
  zero_mul a := Nat.zero_mul (a + 1)

def skewedPair : WeightedAutomaton Char Nat where
  weights := skewed
  size := 2
  initial := #v[1, 2]
  final := #v[3, 0]
  transitions := .ofList [('a', .ofFn fun i j => i.val + 2 * j.val)]

theorem run_exact_skewedPair : ∃ steps, skewedPair.matrices ['a', 'a'] = .ok steps ∧
    skewedPair.run ['a', 'a'] = .ok (skewedPair.pathSum steps) ∧
    skewedPair.pathSum steps = 167 ∧ skewedPair.run ['a', 'b'] = .error ⟨'b'⟩ := by
  obtain ⟨hknown, -⟩ := run_exact skewedPair pathLaws_skewed ['a', 'a']
  obtain ⟨-, hunknown⟩ := run_exact skewedPair pathLaws_skewed ['a', 'b']
  have known : 'a' ∈ skewedPair.transitions.keys := by decide
  obtain ⟨steps, hsteps, hrun⟩ := hknown (by simpa using known)
  have hweight : skewedPair.run ['a', 'a'] = .ok 167 := by decide
  have hsum : skewedPair.pathSum steps = 167 := Except.ok.inj (hrun.symm.trans hweight)
  exact ⟨steps, hsteps, hrun, hsum, (hunknown 'b' (by decide)).2⟩

end PathSum.WeightedAutomaton
