import PathSum.Automaton.Basic
import PathSum.HiddenMarkov.Basic
import PathSum.Proofs.Automaton.Forward
import PathSum.Proofs.Matrix.Boolean
import PathSum.Proofs.Weights.Sums

/-!
# Hidden Markov models as weighted automata

Showing a symbol and going on to the next state is one transition, so a hidden Markov model weighs
sequences of symbols like the automaton whose matrix for a symbol is the emission matrix times the
transition matrix. The model only ever reads the diagonal of an emission matrix; that the product
reads no more is what the check of a new model is for.

* `ofParts_eq_ok_diagonal`: in a model that has passed the check, every entry beside the diagonal
  counts as zero.
* `toAutomaton_eq_ok`: the parts of the automaton go together.
* `step_eq_vecMul`, `finish_eq_dot`: the automaton takes the steps of the model and ends like it.
-/

namespace PathSum.HiddenMarkov

variable {σ α : Type}

/-! ## The automaton of a model -/

/-- The weights of ending, which are all `one` where none are set. -/
def finalOrOne (H : HiddenMarkov σ α) : Vector α H.size :=
  H.final.getD (.replicate H.size H.weights.one)

/-- The automaton that shows a symbol and goes on to the next state in one transition. -/
def toAutomaton (H : HiddenMarkov σ α) : Except ShapeError (WeightedAutomaton σ α) := do
  let transitions ← (H.emission.map AnyMatrix.of).tryMap fun E =>
    E.mul H.weights (.of H.transition)
  WeightedAutomaton.ofParts H.weights H.initial.toArray H.finalOrOne.toArray transitions

/-- What `toAutomaton` leads to. -/
@[reducible]
def automaton (H : HiddenMarkov σ α) : WeightedAutomaton σ α where
  weights := H.weights
  size := H.size
  initial := H.initial
  final := H.finalOrOne
  transitions := H.emission.map fun E => E.mul H.weights H.transition

/-- All sizes go together. -/
theorem toAutomaton_eq_ok (H : HiddenMarkov σ α) : H.toAutomaton = .ok H.automaton := by
  have hproducts : (H.emission.map AnyMatrix.of).tryMap
      (fun E => E.mul H.weights (.of H.transition)) =
        .ok (H.automaton.transitions.map AnyMatrix.of) := by
    rw [SymbolMap.map_map]
    exact SymbolMap.tryMap_map_eq_ok (fun E => AnyMatrix.mul_of H.weights E H.transition) H.emission
  rw [toAutomaton, hproducts]
  exact WeightedAutomaton.ofParts_eq_ok H.weights H.initial H.finalOrOne H.automaton.transitions

/-! ## Models that pass the check -/

theorem offDiagonal?_eq_none_iff {n : Nat} {w : Weights α} {A : Matrix α n n} :
    offDiagonal? w A = none ↔ ∀ i j, i ≠ j → w.same (A.entry i j) w.zero = true := by
  simp only [offDiagonal?, List.findSome?_eq_none_iff, List.mem_finRange, true_implies]
  refine forall₂_congr fun i j => ?_
  by_cases h : i = j <;> simp [h]

/-- An emission matrix that passes the check is diagonal. -/
theorem checkEmission_eq_ok {n : Nat} {w : Weights α} {A : AnyMatrix α} {E : Matrix α n n}
    (h : checkEmission w n A = .ok E) : ∀ i j, i ≠ j → w.same (E.entry i j) w.zero = true := by
  obtain ⟨M, -, hcheck⟩ := bind_eq_ok_iff.mp h
  split at hcheck
  · next hdiagonal =>
    cases hcheck
    exact offDiagonal?_eq_none_iff.mp hdiagonal
  · exact nomatch hcheck

variable [DecidableEq σ]

/-- All that the emission matrices have beside their diagonals counts as zero. -/
def Diagonal (H : HiddenMarkov σ α) : Prop :=
  ∀ symbol E, H.emission.get? symbol = some E →
    ∀ i j, i ≠ j → H.weights.same (E.entry i j) H.weights.zero = true

/-- A new model has the given weights and is diagonal: every entry beside a diagonal was looked at,
and counts as zero. -/
theorem ofParts_eq_ok_diagonal {w : Weights α} {transition : AnyMatrix α}
    {emission : SymbolMap σ (AnyMatrix α)} {initial : Array α} {H : HiddenMarkov σ α}
    (h : ofParts w transition emission initial = .ok H) : H.weights = w ∧ H.Diagonal := by
  obtain ⟨T, -, hrest⟩ := bind_eq_ok_iff.mp h
  obtain ⟨Es, hemission, hparts⟩ := bind_eq_ok_iff.mp hrest
  cases hparts
  refine ⟨rfl, fun symbol E hE => ?_⟩
  obtain ⟨A, -, hcheck⟩ := SymbolMap.exists_of_tryMap_eq_ok hemission hE
  exact checkEmission_eq_ok hcheck

omit [DecidableEq σ] in
/-- Weights of ending change nothing else. -/
theorem withFinal_eq_ok {H K : HiddenMarkov σ α} {final : Array α}
    (h : H.withFinal final = .ok K) : ∃ v, K = { H with final := some v } := by
  obtain ⟨v, -, rfl⟩ := map_eq_ok_iff.mp h
  exact ⟨v, rfl⟩

/-! ## The same steps -/

variable {H : HiddenMarkov σ α}

omit [DecidableEq σ] in
/-- Through a diagonal matrix a state only goes on to where it goes by itself. So scaling by the
diagonal and multiplying by the matrix give the same sums, zeros left out. -/
theorem step_eq_vecMul (laws : H.weights.SemiringLaws) {E : Matrix α H.size H.size}
    (diagonal : ∀ i j, i ≠ j → E.entry i j = H.weights.zero) (v : Vector α H.size) :
    H.step v E = Matrix.vecMul H.weights v (E.mul H.weights H.transition) := by
  apply ext_get
  intro j
  have hone (i : Fin H.size) : (H.weights.sumOver H.size fun k =>
      H.weights.mul (E.entry i k) (H.transition.entry k j)) =
        H.weights.mul (E.entry i i) (H.transition.entry i j) := by
    refine laws.toPathLaws.sumOver_eq_single i fun k hk => ?_
    rw [diagonal i k hk.symm, laws.zero_mul]
  simp only [step, Matrix.get_vecMul, get_ofFn, Matrix.entry_mul, hone, laws.mul_assoc]

omit [DecidableEq σ] in
/-- Where no weights of ending are set, all of them might as well be `one`. -/
theorem finish_eq_dot (laws : H.weights.SemiringLaws) (v : Vector α H.size) :
    H.finish v = H.weights.dot v H.finalOrOne := by
  unfold finish finalOrOne
  cases H.final with
  | some final => rfl
  | none =>
    rw [← Weights.sumOver_get, Weights.dot]
    simp only [Option.getD_none, get_replicate, laws.mul_one]

/-- A diagonal model and its automaton weigh all words alike, and know the same symbols. In the
automaton, a symbol is read by its emission matrix times the transition matrix, so that showing it
and going on is one step. -/
theorem forward_eq_run (laws : H.weights.SemiringLaws) (diagonal : H.Diagonal)
    (exact : ∀ a, H.weights.same a H.weights.zero = true → a = H.weights.zero) (word : List σ) :
    H.forward word = H.automaton.run word := by
  have hstep (v : Vector α H.size) (s : σ) : (H.emission.lookup s).map (H.step v) =
      (H.automaton.transitions.lookup s).map (Matrix.vecMul H.weights v) := by
    rw [SymbolMap.lookup, SymbolMap.lookup, SymbolMap.get?_map]
    cases hE : H.emission.get? s with
    | none => rfl
    | some E =>
      have hzero (i j : Fin H.size) (hne : i ≠ j) : E.entry i j = H.weights.zero :=
        exact _ (diagonal s E hE i j hne)
      show Except.ok (H.step v E) =
        .ok (Matrix.vecMul H.weights v (E.mul H.weights H.transition))
      rw [step_eq_vecMul laws hzero]
  rw [forward, WeightedAutomaton.run, WeightedAutomaton.forward, WeightedAutomaton.forwardFrom]
  simp only [hstep, funext (finish_eq_dot laws)]

/-- **A hidden Markov model is a weighted automaton.** Over a semiring in which only equal weights
count as equal, a model that is built from its parts, with weights of ending or without, has an
automaton: the parts of the automaton go together. The two give every word the same weight, or
report the same symbol as unknown. -/
theorem exists_automaton (w : Weights α) (laws : w.SemiringLaws)
    (equality : ∀ a b, w.same a b = true ↔ a = b) (transition : AnyMatrix α)
    (emission : SymbolMap σ (AnyMatrix α)) (initial : Array α) (H : HiddenMarkov σ α)
    (built : ofParts w transition emission initial = .ok H) (K : HiddenMarkov σ α)
    (closed : K = H ∨ ∃ final, H.withFinal final = .ok K) :
    ∃ A, K.toAutomaton = .ok A ∧ ∀ word, K.forward word = A.run word := by
  refine ⟨K.automaton, K.toAutomaton_eq_ok, fun word => ?_⟩
  obtain ⟨rfl, diagonal⟩ := ofParts_eq_ok_diagonal built
  rcases closed with rfl | ⟨final, hfinal⟩
  · exact forward_eq_run laws diagonal (fun a => (equality a _).mp) word
  · obtain ⟨v, rfl⟩ := withFinal_eq_ok hfinal
    exact forward_eq_run (H := { H with final := some v }) laws diagonal
      (fun a => (equality a _).mp) word

/-- Two hidden states and two symbols, with counts for weights. -/
def countingModel : HiddenMarkov Char Nat where
  weights := .ofSemiring Nat
  size := 2
  transition := .ofFn fun i j => i.val + 2 * j.val
  emission := .ofList [('u', .diagonal (.ofSemiring Nat) #v[3, 1]),
    ('n', .diagonal (.ofSemiring Nat) #v[1, 4])]
  initial := #v[1, 1]
  final := some #v[5, 1]

theorem exists_automaton_countingModel :
    ∃ H, ofParts countingModel.weights (.of countingModel.transition)
        (countingModel.emission.map AnyMatrix.of) #[1, 1] = .ok H ∧
      H.withFinal #[5, 1] = .ok countingModel ∧
      ∃ A, countingModel.toAutomaton = .ok A ∧ A.run ['u', 'n'] = .ok 290 ∧
        A.run ['u', 'x'] = .error ⟨'x'⟩ := by
  have built : ofParts countingModel.weights (.of countingModel.transition)
      (countingModel.emission.map AnyMatrix.of) #[1, 1] =
        .ok { countingModel with final := none } := rfl
  have closed : HiddenMarkov.withFinal { countingModel with final := none } #[5, 1] =
      .ok countingModel := rfl
  obtain ⟨A, hA, hsame⟩ := exists_automaton countingModel.weights
    (Weights.semiringLaws_ofSemiring Nat) (fun a b => decide_eq_true_iff) _ _ _ _ built
    countingModel (.inr ⟨_, closed⟩)
  have hweight : countingModel.forward ['u', 'n'] = .ok 290 := by decide
  have herror : countingModel.forward ['u', 'x'] = .error ⟨'x'⟩ := by decide
  exact ⟨_, built, closed, A, hA, (hsame _).symm.trans hweight, (hsame _).symm.trans herror⟩

end PathSum.HiddenMarkov
