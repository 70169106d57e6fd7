import PathSum.HiddenMarkov.Stored
import PathSum.Proofs.HiddenMarkov.StateSums
import PathSum.Proofs.Shapes.Automata

/-!
# Shapes of models

Every hidden Markov model that can come about is a model of known size, stored. All ways to make one
check the sizes; the forward pass relies on that.

* `HiddenMarkov.forward_stored`: the forward pass of a stored model finds all entries.
* `HiddenMarkov.ofParts_stored`, `withFinal_stored`: the checks.
* `StoredModel.Built.exists_stored`: the invariant, by induction on how a model came about.

**`shapes_kept`** puts this together with the same for automata.
-/

namespace PathSum

variable {σ α : Type}

namespace StoredModel

/-- The models that can come about: from matrices or emission vectors, with final weights set any
number of times. -/
inductive Built : StoredModel σ α → Prop where
  | ofParts {weights : Weights α} {transition : AnyMatrix α} {emission : SymbolMap σ (AnyMatrix α)}
      {initial : Array α} {H : StoredModel σ α} :
      StoredModel.ofParts weights transition emission initial = .ok H → Built H
  | ofEmissionVectors {weights : Weights α} {transition : AnyMatrix α}
      {emission : SymbolMap σ (Array α)} {initial : Array α} {H : StoredModel σ α} :
      StoredModel.ofEmissionVectors weights transition emission initial = .ok H → Built H
  | withFinal {H H' : StoredModel σ α} {final : Array α} :
      Built H → H.withFinal final = .ok H' → Built H'

/-- All sizes are the number of states: those of the vectors, of the transition matrix and of every
emission matrix. -/
structure WellShaped (H : StoredModel σ α) : Prop where
  initial_size : H.initial.size = H.size
  final_size : ∀ final, H.final = some final → final.size = H.size
  shape_transition : H.transition.shape = ⟨H.size, H.size⟩
  shape_emission : ∀ E ∈ H.emission.values, E.shape = ⟨H.size, H.size⟩

end StoredModel

namespace HiddenMarkov

/-! ## The forward pass -/

theorem step_stored (H : HiddenMarkov σ α) (v : Vector α H.size) (E : Matrix α H.size H.size) :
    H.stored.step v.toArray (.of E) = .ok (H.step v E).toArray := by
  rw [StoredModel.step, AnyMatrix.scaleUnchecked_of]
  exact AnyMatrix.vecMulUnchecked_of ..

theorem finish_stored (H : HiddenMarkov σ α) (v : Vector α H.size) :
    H.stored.finish v.toArray = H.finish v := by
  obtain ⟨weights, size, transition, emission, initial, final⟩ := H
  cases final with
  | none => rfl
  | some final => exact weights.dotUnchecked_toArray v final

theorem forward_stored [DecidableEq σ] (H : HiddenMarkov σ α) (word : List σ) :
    H.stored.forward word = (H.forward word).mapError .unknown := by
  have hpass := SymbolMap.pass_map H.step_stored H.emission H.initial word
  rw [StoredModel.forward, hpass, forward]
  cases word.foldlM (fun v symbol => (H.emission.lookup symbol).map (H.step v)) H.initial with
  | error e => rfl
  | ok v =>
    show Except.ok (H.stored.finish v.toArray) = .ok (H.finish v)
    rw [finish_stored]

/-! ## The checks -/

/-- An emission matrix that passes the check stays as it is. -/
theorem of_eq_of_checkEmission {n : Nat} {w : Weights α} {A : AnyMatrix α} {E : Matrix α n n}
    (h : checkEmission w n A = .ok E) : .of E = A := by
  obtain ⟨M, hM, hcheck⟩ := bind_eq_ok_iff.mp h
  split at hcheck
  · cases hcheck
    exact AnyMatrix.squareOf_eq_ok_iff.mp hM
  · exact nomatch hcheck

theorem ofParts_stored (weights : Weights α) (transition : AnyMatrix α)
    (emission : SymbolMap σ (AnyMatrix α)) (initial : Array α) :
    StoredModel.ofParts weights transition emission initial =
      (ofParts weights transition emission initial).map stored := by
  rw [StoredModel.ofParts, ofParts]
  cases htransition : transition.squareOf initial.size .transitionMatrix with
  | error e => rfl
  | ok transition' =>
    cases hemission : emission.tryMap (checkEmission weights initial.size) with
    | error e => rfl
    | ok emission' =>
      have htransition' := AnyMatrix.squareOf_eq_ok_iff.mp htransition
      have hemission' := SymbolMap.map_of_tryMap_eq_ok
        (fun _ _ h => of_eq_of_checkEmission h) hemission
      subst htransition' hemission'
      rfl

theorem withFinal_stored (H : HiddenMarkov σ α) (final : Array α) :
    H.stored.withFinal final = (H.withFinal final).map stored := by
  rw [StoredModel.withFinal, withFinal]
  cases hfinal : checkLength .finalWeights H.size final with
  | error e => rfl
  | ok final' =>
    have hfinal' := AnyMatrix.checkLength_eq_ok_iff.mp hfinal
    subst hfinal'
    rfl

/-! ## The invariant -/

theorem wellShaped_stored (H : HiddenMarkov σ α) : H.stored.WellShaped where
  initial_size := H.initial.size_toArray
  final_size final h := by
    obtain ⟨v, _, rfl⟩ := Option.map_eq_some_iff.mp h
    exact v.size_toArray
  shape_transition := rfl
  shape_emission E hE := by
    rw [SymbolMap.values_map] at hE
    obtain ⟨M, _, rfl⟩ := List.mem_map.mp hE
    rfl

end HiddenMarkov

/-- **Every model that comes about is one of known size**, by induction on how it came about.
Setting weights of ending again keeps everything else. -/
theorem StoredModel.Built.exists_stored {H : StoredModel σ α} (h : H.Built) :
    ∃ T : HiddenMarkov σ α, T.stored = H := by
  induction h with
  | ofParts hparts =>
    rw [HiddenMarkov.ofParts_stored] at hparts
    exact exists_of_map_eq_ok hparts
  | ofEmissionVectors hvectors =>
    rw [StoredModel.ofEmissionVectors, HiddenMarkov.ofParts_stored] at hvectors
    exact exists_of_map_eq_ok hvectors
  | withFinal _ hfinal ih =>
    obtain ⟨T, rfl⟩ := ih
    rw [HiddenMarkov.withFinal_stored] at hfinal
    exact exists_of_map_eq_ok hfinal

theorem StoredModel.Built.inRange_forward [DecidableEq σ] {H : StoredModel σ α} (h : H.Built)
    (word : List σ) :
    InRange (H.emission.unknown? word) (fun _ => True) (H.forward word) := by
  obtain ⟨T, rfl⟩ := h.exists_stored
  rw [T.forward_stored, SymbolMap.unknown?_map]
  refine inRange_mapError (fun e => ?_) fun _ _ => trivial
  rw [HiddenMarkov.forward_eq_map, map_eq_error_iff]
  exact SymbolMap.mapM_lookup_eq_error_iff

/-! ## All together -/

/-- **Shapes are kept, so nothing is read out of range.** All sizes of an automaton that comes about
are its number of states, and likewise of a model. So a run, a product and a forward pass find every
entry that they read: they have a result unless a symbol is unknown, and then the first such symbol
is reported. They give what the same automaton or model gives whose size is known. Parts of an
automaton are refused if and only if the vectors differ in length or some matrix does not have that
many rows and columns. -/
theorem shapes_kept (σ α : Type) [DecidableEq σ] :
    (∀ A : StoredAutomaton σ α, A.Built → A.WellShaped ∧
      (∀ word, InRange (A.transitions.unknown? word) (fun v => v.size = A.size) (A.forward word)) ∧
      (∀ word, InRange (A.transitions.unknown? word) (fun _ => True) (A.run word)) ∧
      (∀ B : StoredAutomaton σ α, B.Built → ∀ alphabet,
        InRange (alphabet.find? fun s => ¬(s ∈ A.transitions.keys ∧ s ∈ B.transitions.keys))
          (fun C => C.Built ∧ C.size = A.size * B.size) (A.product B alphabet)) ∧
      ∃ T : WeightedAutomaton σ α, T.stored = A ∧
        ∀ word, A.run word = (T.run word).mapError .unknown) ∧
    (∀ A : StoredAutomaton σ Bool, A.Built → ∀ word,
      InRange (A.transitions.unknown? word) (fun _ => True) (A.activeStates word)) ∧
    (∀ H : StoredModel σ α, H.Built → H.WellShaped ∧
      (∀ word, InRange (H.emission.unknown? word) (fun _ => True) (H.forward word)) ∧
      ∃ T : HiddenMarkov σ α, T.stored = H ∧
        ∀ word, H.forward word = (T.forward word).mapError .unknown) ∧
    ∀ (weights : Weights α) (initial final : Array α) (transitions : SymbolMap σ (AnyMatrix α)),
      (∃ e, WeightedAutomaton.ofParts weights initial final transitions = .error e) ↔
        final.size ≠ initial.size ∨
          ∃ M ∈ transitions.values, M.shape ≠ ⟨initial.size, initial.size⟩ := by
  refine ⟨fun A hA => ?_, fun A hA => hA.inRange_activeStates, fun H hH => ?_,
    fun _ _ _ _ => WeightedAutomaton.ofParts_eq_error_iff⟩
  · obtain ⟨T, rfl⟩ := hA.exists_stored
    exact ⟨T.wellShaped_stored, hA.inRange_forward, hA.inRange_run,
      fun _ hB => hA.inRange_product hB, T, rfl, T.run_stored⟩
  · obtain ⟨T, rfl⟩ := hH.exists_stored
    exact ⟨T.wellShaped_stored, hH.inRange_forward, T, rfl, T.forward_stored⟩

/-- Two states that `a` swaps. -/
def swapping : StoredAutomaton Char Bool :=
  ⟨.boolean, 2, #[true, false], #[false, true],
    .ofList [('a', .of (m := 2) (n := 2) ⟨#v[false, true, true, false]⟩)]⟩

/-- Two states, of which only the first shows `u`, with weights of ending if there are any. -/
def showing (final : Option (Array Bool)) : StoredModel Char Bool :=
  ⟨.boolean, 2, .of (.filled 2 2 true),
    .ofList [('u', .of (.diagonal .boolean #[true, false].toVector))], #[true, true], final⟩

/-- Weights of ending can be set twice, and all that can be wrong with a word is a symbol. An
automaton is run, multiplied by itself, and asked for its active states. -/
theorem shapes_kept_swapping :
    swapping.Built ∧ (showing (some #[false, true])).Built ∧
      InRange none (fun v => v.size = 2) (swapping.forward ['a', 'a']) ∧
      InRange (some 'b') (fun v => v.size = 2) (swapping.forward ['a', 'b']) ∧
      InRange none (fun C => C.Built ∧ C.size = 4) (swapping.product swapping ['a']) ∧
      InRange none (fun _ => True) (swapping.activeStates ['a']) ∧
      InRange (some 'x') (fun _ => True) ((showing (some #[false, true])).forward ['u', 'x']) ∧
      ∃ e, WeightedAutomaton.ofParts .boolean #[true, false] #[true]
        (SymbolMap.empty : SymbolMap Char (AnyMatrix Bool)) = .error e := by
  have hparts : StoredAutomaton.ofParts swapping.weights swapping.initial swapping.final
      swapping.transitions = .ok swapping := by rfl
  have hmodel : StoredModel.ofEmissionVectors .boolean (.of (.filled 2 2 true))
      (.ofList [('u', #[true, false])]) #[true, true] = .ok (showing none) := by rfl
  have hset : (showing none).withFinal #[true, true] = .ok (showing (some #[true, true])) := by rfl
  have hreset : (showing (some #[true, true])).withFinal #[false, true] =
      .ok (showing (some #[false, true])) := by rfl
  have hswapping : swapping.Built := .ofParts hparts
  have hshowing : (showing (some #[false, true])).Built :=
    .withFinal (.withFinal (.ofEmissionVectors hmodel) hset) hreset
  obtain ⟨hautomata, hactive, hmodels, hrefused⟩ := shapes_kept Char Bool
  obtain ⟨-, hforward, -, hproduct, -⟩ := hautomata swapping hswapping
  obtain ⟨-, hpass, -⟩ := hmodels _ hshowing
  exact ⟨hswapping, hshowing, hforward ['a', 'a'], hforward ['a', 'b'],
    hproduct swapping hswapping ['a'], hactive swapping hswapping ['a'], hpass ['u', 'x'],
    (hrefused ..).mpr (.inl (by decide))⟩

end PathSum
