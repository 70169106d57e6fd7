import PathSum.HiddenMarkov.Runs
import PathSum.Proofs.Automaton.RunSums

/-!
# The weight of what is shown sums over the hidden states

The forward pass of a hidden Markov model keeps one weight for each state. A symbol first scales
these weights in place and then sends them on, while the meaning of the result is a sum over all
sequences of states that may have been gone through. The pass carries weights like that of an
automaton (`stateRule`), with two factors a step and with a last factor only where weights of ending
are set.

* `along_stateRule`: along one path, a weight counts for what its sequence of states weighs.
* `finish_foldl_step`: showing any emission matrices one after the other sums over the sequences.
* `forward_eq_map`: the forward pass looks up its word and shows the matrices that it finds.
-/

namespace PathSum.HiddenMarkov

variable {σ α : Type}

/-! ## The forward pass carries weights -/

/-- What a weight counts for in the state where it ends. -/
def closeIn (H : HiddenMarkov σ α) (i : Fin H.size) (x : α) : α :=
  match H.final with
  | some final => H.weights.mul x (final.get i)
  | none => x

theorem additive_closeIn (H : HiddenMarkov σ α) (laws : H.weights.PathLaws) (i : Fin H.size) :
    H.weights.Additive (H.closeIn i) := by
  unfold closeIn
  cases H.final with
  | some final => exact laws.additive_mul_right (final.get i)
  | none => exact ⟨rfl, fun _ _ => rfl⟩

/-- A weight is multiplied by what its state shows, then by the way to the next state. -/
def stateRule (H : HiddenMarkov σ α) (laws : H.weights.PathLaws) :
    CarryRule H.weights H.size (Matrix α H.size H.size) where
  carry E i j x := H.weights.mul (H.weights.mul x (E.entry i i)) (H.transition.entry i j)
  finish := H.closeIn
  additive_carry E i j :=
    (laws.additive_mul_right (H.transition.entry i j)).comp (laws.additive_mul_right (E.entry i i))
  additive_finish := H.additive_closeIn laws

variable {H : HiddenMarkov σ α} {laws : H.weights.PathLaws}

theorem step_stateRule : (H.stateRule laws).step = H.step := by
  funext v E
  simp only [CarryRule.step, stateRule, step, Matrix.vecMul, get_ofFn]

/-- With weights of ending or without them, all states are summed up. -/
theorem total_stateRule (v : Vector α H.size) : (H.stateRule laws).total v = H.finish v := by
  show (H.weights.sumOver H.size fun i => H.closeIn i (v.get i)) = H.finish v
  unfold closeIn finish
  cases H.final with
  | some final => rfl
  | none => exact Weights.sumOver_get v

theorem along_stateRule {shown : List (Matrix α H.size H.size)} {stops : List (Fin H.size)}
    (length : stops.length = shown.length) (x : α) (i : Fin H.size) :
    (H.stateRule laws).along x i (shown.zip stops) =
      H.closeIn (stops.getLastD i) (H.along x i (shown.zip stops)) := by
  induction shown generalizing stops x i with
  | nil =>
    obtain rfl := List.length_eq_zero_iff.mp length
    rfl
  | cons E shown ih =>
    cases stops with
    | nil => exact nomatch length
    | cons j stops =>
      rw [List.getLastD_cons]
      exact ih (Nat.succ.inj length) ((H.stateRule laws).carry E i j x) j

/-- Showing one matrix after the other sums over the sequences of states. -/
theorem finish_foldl_step (laws : H.weights.PathLaws) (shown : List (Matrix α H.size H.size)) :
    H.finish (shown.foldl H.step H.initial) = H.pathSum shown := by
  have hsum := CarryRule.total_foldl_step_eq_sum_routes (R := H.stateRule laws) laws shown H.initial
  rw [step_stateRule, total_stateRule] at hsum
  rw [hsum, pathSum]
  congr 1
  refine List.map_congr_left fun (start, stops) hroute => ?_
  exact along_stateRule (mem_routes.mp hroute) (H.initial.get start) start

/-! ## Words -/

variable [DecidableEq σ] {word : List σ}

/-- A word is shown matrix by matrix. -/
theorem forward_eq_map :
    H.forward word =
      (H.matrices word).map fun shown => H.finish (shown.foldl H.step H.initial) := by
  rw [forward, SymbolMap.foldlM_lookup, matrices]
  cases word.mapM H.emission.lookup <;> rfl

/-- **The weight of a word is the sum over all sequences of states.** Where sums can be taken in any
order and go through products from the right, a word of known symbols weighs what the sequences of
hidden states weigh together. The first symbol that is not known is an error. -/
theorem forward_exact (H : HiddenMarkov σ α) (laws : H.weights.PathLaws) (word : List σ) :
    ((∀ s ∈ word, s ∈ H.emission.keys) →
      ∃ shown, H.matrices word = .ok shown ∧ H.forward word = .ok (H.pathSum shown)) ∧
    ∀ symbol, word.find? (· ∉ H.emission.keys) = some symbol →
      H.forward word = .error ⟨symbol⟩ := by
  constructor
  · intro known
    obtain ⟨shown, hshown⟩ := SymbolMap.exists_mapM_lookup_eq_ok known
    have hmatrices : H.matrices word = .ok shown := hshown
    refine ⟨shown, hmatrices, ?_⟩
    rw [forward_eq_map, hmatrices, ← finish_foldl_step laws]
    rfl
  · intro symbol first
    have herror : H.matrices word = .error ⟨symbol⟩ := SymbolMap.mapM_lookup_eq_error_iff.mpr first
    rw [forward_eq_map, herror]
    rfl

/-- Two hidden states, and products that are not associative. -/
def skewedModel : HiddenMarkov Char Nat where
  weights := WeightedAutomaton.skewed
  size := 2
  transition := .ofFn fun i j => i.val + 2 * j.val
  emission := .ofList [('u', .diagonal WeightedAutomaton.skewed #v[2, 1]),
    ('n', .diagonal WeightedAutomaton.skewed #v[0, 4])]
  initial := #v[2, 3]
  final := some #v[1, 3]

theorem forward_exact_skewedModel :
    (∃ H, ofEmissionVectors WeightedAutomaton.skewed (.of skewedModel.transition)
        (.ofList [('u', #[2, 1]), ('n', #[0, 4])]) #[2, 3] = .ok H ∧
      H.withFinal #[1, 3] = .ok skewedModel) ∧
    ∃ shown, skewedModel.matrices ['u', 'n'] = .ok shown ∧
      skewedModel.forward ['u', 'n'] = .ok (skewedModel.pathSum shown) ∧
      skewedModel.pathSum shown = 4452 ∧ skewedModel.forward ['u', 'x'] = .error ⟨'x'⟩ := by
  obtain ⟨hknown, -⟩ := forward_exact skewedModel WeightedAutomaton.pathLaws_skewed ['u', 'n']
  obtain ⟨-, hunknown⟩ := forward_exact skewedModel WeightedAutomaton.pathLaws_skewed ['u', 'x']
  have hfirst : 'u' ∈ skewedModel.emission.keys := by decide
  have hsecond : 'n' ∈ skewedModel.emission.keys := by decide
  obtain ⟨shown, hshown, hforward⟩ := hknown (by simp [hfirst, hsecond])
  have hweight : skewedModel.forward ['u', 'n'] = .ok 4452 := by decide
  have hsum : skewedModel.pathSum shown = 4452 := Except.ok.inj (hforward.symm.trans hweight)
  exact ⟨⟨{ skewedModel with final := none }, rfl, rfl⟩, shown, hshown, hforward, hsum,
    hunknown 'x' (by decide)⟩

end PathSum.HiddenMarkov
