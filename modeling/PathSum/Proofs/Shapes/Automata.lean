import PathSum.Automaton.Stored
import PathSum.Proofs.Automaton.Product
import PathSum.Regex.Compiled

/-!
# Shapes of automata

Every automaton that can come about is an automaton of known size, stored. This carries over the
product, which is put together without a look at the sizes, and it is all that a run needs to find
every entry that it reads.

* `SymbolMap.pass_map`: a pass over a word whose steps find all entries ends early only for an
  unknown symbol.
* `WeightedAutomaton.run_stored`, `product_stored`: what is done with stored automata is what is
  done with automata of known size.
* `ofParts_stored`, `ofParts_eq_error_iff`: the check of the parts.
* `StoredAutomaton.Built.exists_stored`: the invariant, by induction on how an automaton came about.
* `StoredAutomaton.Built.inRange_forward`, `inRange_product`: what it means for what is read.
-/

namespace PathSum

variable {σ α : Type}

namespace StoredAutomaton

/-- The automata that can come about: from parts, as products, and from patterns. There is a
constructor for each function that makes one, applied to anything for which it has a result. -/
inductive Built : {σ α : Type} → StoredAutomaton σ α → Prop where
  | ofParts {σ α : Type} {weights : Weights α} {initial final : Array α}
      {transitions : SymbolMap σ (AnyMatrix α)} {A : StoredAutomaton σ α} :
      StoredAutomaton.ofParts weights initial final transitions = .ok A → Built A
  | product {σ α : Type} [DecidableEq σ] {A B C : StoredAutomaton σ α} {alphabet : List σ} :
      Built A → Built B → A.product B alphabet = .ok C → Built C
  | compile {limit : Nat} {alphabet : Alphabet Char} {pattern : String}
      {A : WeightedAutomaton Char Bool} :
      Regex.compile limit alphabet pattern = .ok A → Built A.stored

/-- All sizes are the number of states. -/
structure WellShaped (A : StoredAutomaton σ α) : Prop where
  initial_size : A.initial.size = A.size
  final_size : A.final.size = A.size
  shape_transitions : ∀ M ∈ A.transitions.values, M.shape = ⟨A.size, A.size⟩

end StoredAutomaton

/-! ## Results in range -/

/-- What fails only on an unknown symbol, and always on one, is in range. The faults that a stored
automaton could have besides do not come up. -/
theorem inRange_mapError {β : Type} {unknown : Option σ} {P : β → Prop}
    {x : Except (LookupError σ) β} (herror : ∀ e, x = .error e ↔ unknown = some e.symbol)
    (hok : ∀ b, x = .ok b → P b) : InRange unknown P (x.mapError Fault.unknown) := by
  cases x with
  | error e => exact (herror e).mp rfl
  | ok b =>
    refine ⟨?_, hok b rfl⟩
    cases unknown with
    | none => rfl
    | some s => exact nomatch (herror ⟨s⟩).mpr rfl

theorem SymbolMap.unknown?_map [DecidableEq σ] {β γ : Type} (f : β → γ) (map : SymbolMap σ β)
    (word : List σ) : (map.map f).unknown? word = map.unknown? word := by
  rw [unknown?, keys_map, unknown?]

/-- If every step finds its entries, a pass ends early only for an unknown symbol. Up to there it
carries what the pass over matrices of known shape carries. -/
theorem SymbolMap.pass_map [DecidableEq σ] {β β' γ γ' : Type} {step : γ → β → Except OutOfRange γ}
    {step' : γ' → β' → γ'} {f : γ' → γ} {h : β' → β}
    (through : ∀ v x, step (f v) (h x) = .ok (f (step' v x))) (map : SymbolMap σ β') (v : γ')
    (word : List σ) :
    (map.map h).pass step (f v) word =
      ((word.foldlM (fun v s => (map.lookup s).map (step' v)) v).map f).mapError .unknown := by
  refine foldlM_map_mapError (fun v s => ?_) v word
  rw [lookup_map]
  cases map.lookup s with
  | error e => rfl
  | ok x =>
    show (step (f v) (h x)).mapError Fault.outOfRange = _
    rw [through]
    rfl

/-! ## Runs and products -/

namespace WeightedAutomaton

section
variable [DecidableEq σ]

theorem forward_stored (A : WeightedAutomaton σ α) (word : List σ) :
    A.stored.forward word = ((A.forward word).map Vector.toArray).mapError .unknown := by
  have hstep (v : Vector α A.size) (M : Matrix α A.size A.size) :=
    AnyMatrix.vecMulUnchecked_of A.weights v M
  exact SymbolMap.pass_map hstep A.transitions A.initial word

theorem run_stored (A : WeightedAutomaton σ α) (word : List σ) :
    A.stored.run word = (A.run word).mapError .unknown := by
  rw [StoredAutomaton.run, forward_stored, run]
  cases A.forward word with
  | error e => rfl
  | ok v =>
    show Except.ok (A.weights.dotUnchecked v.toArray A.final.toArray) = _
    rw [A.weights.dotUnchecked_toArray]
    rfl

theorem activeStates_stored (A : WeightedAutomaton σ Bool) (word : List σ) :
    A.stored.activeStates word = (A.activeStates word).mapError .unknown := by
  rw [StoredAutomaton.activeStates, forward_stored, activeStates]
  cases A.forward word <;> rfl

theorem pairTransition_stored (A B : WeightedAutomaton σ α) (symbol : σ) :
    A.stored.pairTransition B.stored symbol =
      ((A.pairTransition B symbol).map AnyMatrix.of).mapError .unknown := by
  rw [StoredAutomaton.pairTransition, SymbolMap.lookup_map, SymbolMap.lookup_map, pairTransition]
  cases A.transitions.lookup symbol with
  | error e => rfl
  | ok left =>
    cases B.transitions.lookup symbol with
    | error e => rfl
    | ok right =>
      show ((AnyMatrix.of left).kronUnchecked A.weights (.of right)).mapError _ = _
      rw [AnyMatrix.kronUnchecked_eq]
      rfl

theorem pairTransitions_stored (A B : WeightedAutomaton σ α) (alphabet : List σ)
    (map : SymbolMap σ (Matrix α (A.size * B.size) (A.size * B.size))) :
    A.stored.pairTransitions B.stored alphabet (map.map .of) =
      ((A.pairTransitions B alphabet map).map (SymbolMap.map AnyMatrix.of)).mapError .unknown := by
  refine foldlM_map_mapError (fun map symbol => ?_) map alphabet
  rw [pairTransition_stored]
  cases A.pairTransition B symbol with
  | error e => rfl
  | ok M =>
    show Except.ok ((map.map AnyMatrix.of).insert symbol (.of M)) =
      .ok ((map.insert symbol M).map AnyMatrix.of)
    rw [SymbolMap.map_insert]

/-- The product of stored automata is the stored product. Its matrices are made by loops that read
the entries of both factors, and none of them is missing. -/
theorem product_stored (A B : WeightedAutomaton σ α) (alphabet : List σ) :
    A.stored.product B.stored alphabet =
      ((A.product B alphabet).map stored).mapError .unknown := by
  have htransitions : A.stored.pairTransitions B.stored alphabet .empty = _ :=
    A.pairTransitions_stored B alphabet .empty
  rw [StoredAutomaton.product, htransitions, product_eq_map]
  cases A.pairTransitions B alphabet .empty with
  | error e => rfl
  | ok transitions =>
    show Except.ok _ = Except.ok (A.joint B transitions).stored
    simp only [Weights.kronVecOf_toArray]

end

/-! ## The check of the parts -/

/-- The check leaves the parts as they are. So an automaton that was made from parts is the stored
form of one of known size. -/
theorem ofParts_stored (weights : Weights α) (initial final : Array α)
    (transitions : SymbolMap σ (AnyMatrix α)) :
    StoredAutomaton.ofParts weights initial final transitions =
      (ofParts weights initial final transitions).map stored := by
  rw [StoredAutomaton.ofParts, ofParts]
  cases hfinal : checkLength .finalWeights initial.size final with
  | error e => rfl
  | ok final' =>
    cases htransitions : transitions.tryMap
        fun A => A.squareOf initial.size .transitionMatrix with
    | error e => rfl
    | ok transitions' =>
      have hfinal' := AnyMatrix.checkLength_eq_ok_iff.mp hfinal
      have htransitions' := SymbolMap.map_of_tryMap_eq_ok
        (fun _ _ h => AnyMatrix.squareOf_eq_ok_iff.mp h) htransitions
      subst hfinal' htransitions'
      rfl

/-- Parts are refused if the vectors differ in length or a matrix has another size. Nothing else is
checked. -/
theorem ofParts_eq_error_iff {weights : Weights α} {initial final : Array α}
    {transitions : SymbolMap σ (AnyMatrix α)} :
    (∃ e, ofParts weights initial final transitions = .error e) ↔
      final.size ≠ initial.size ∨
        ∃ M ∈ transitions.values, M.shape ≠ ⟨initial.size, initial.size⟩ := by
  have hlength : (∃ e, checkLength .finalWeights initial.size final = .error e) ↔
      final.size ≠ initial.size := AnyMatrix.checkLength_eq_error_iff
  have hshapes : (∃ e, (transitions.tryMap fun A =>
        A.squareOf initial.size .transitionMatrix) = .error e) ↔
      ∃ M ∈ transitions.values, M.shape ≠ ⟨initial.size, initial.size⟩ := by
    simp only [SymbolMap.tryMap_eq_error_iff, AnyMatrix.squareOf_eq_error_iff]
  rw [← hlength, ← hshapes, ofParts]
  -- the two checks are made in this order, and nothing else can fail.
  cases checkLength .finalWeights initial.size final with
  | error e => exact ⟨fun _ => .inl ⟨e, rfl⟩, fun _ => ⟨e, rfl⟩⟩
  | ok final' =>
    cases transitions.tryMap fun A => A.squareOf initial.size .transitionMatrix with
    | error e => exact ⟨fun _ => .inr ⟨e, rfl⟩, fun _ => ⟨e, rfl⟩⟩
    | ok transitions' =>
      show (∃ e, Except.ok _ = Except.error e) ↔ _
      simp

/-! ## The invariant -/

theorem wellShaped_stored (A : WeightedAutomaton σ α) : A.stored.WellShaped where
  initial_size := A.initial.size_toArray
  final_size := A.final.size_toArray
  shape_transitions M hM := by
    rw [SymbolMap.values_map] at hM
    obtain ⟨N, _, rfl⟩ := List.mem_map.mp hM
    rfl

end WeightedAutomaton

namespace StoredAutomaton.Built

/-- **Every automaton that comes about is one of known size.** The product needs no check for that,
since it is the product of two that are. -/
theorem exists_stored {A : StoredAutomaton σ α} (h : A.Built) :
    ∃ T : WeightedAutomaton σ α, T.stored = A := by
  induction h with
  | ofParts hparts =>
    rw [WeightedAutomaton.ofParts_stored] at hparts
    exact exists_of_map_eq_ok hparts
  | product _ _ hproduct ihA ihB =>
    obtain ⟨T, rfl⟩ := ihA
    obtain ⟨U, rfl⟩ := ihB
    rw [WeightedAutomaton.product_stored] at hproduct
    exact exists_of_map_eq_ok (mapError_eq_ok_iff.mp hproduct)
  | compile _ => exact ⟨_, rfl⟩

variable [DecidableEq σ] {A B : StoredAutomaton σ α}

theorem inRange_forward (h : A.Built) (word : List σ) :
    InRange (A.transitions.unknown? word) (fun v => v.size = A.size) (A.forward word) := by
  obtain ⟨T, rfl⟩ := h.exists_stored
  rw [T.forward_stored, SymbolMap.unknown?_map]
  refine inRange_mapError (fun e => ?_) fun v hv => ?_
  · rw [map_eq_error_iff]
    exact WeightedAutomaton.forward_eq_error_iff
  · obtain ⟨w, _, rfl⟩ := map_eq_ok_iff.mp hv
    exact w.size_toArray

theorem inRange_run (h : A.Built) (word : List σ) :
    InRange (A.transitions.unknown? word) (fun _ => True) (A.run word) := by
  obtain ⟨T, rfl⟩ := h.exists_stored
  rw [T.run_stored, SymbolMap.unknown?_map]
  refine inRange_mapError (fun e => ?_) fun _ _ => trivial
  rw [WeightedAutomaton.run_eq_error_iff]
  exact WeightedAutomaton.forward_eq_error_iff

theorem inRange_activeStates {A : StoredAutomaton σ Bool} (h : A.Built) (word : List σ) :
    InRange (A.transitions.unknown? word) (fun _ => True) (A.activeStates word) := by
  obtain ⟨T, rfl⟩ := h.exists_stored
  rw [T.activeStates_stored, SymbolMap.unknown?_map]
  refine inRange_mapError (fun e => ?_) fun _ _ => trivial
  rw [WeightedAutomaton.activeStates, map_eq_error_iff]
  exact WeightedAutomaton.forward_eq_error_iff

theorem inRange_product (hA : A.Built) (hB : B.Built) (alphabet : List σ) :
    InRange (alphabet.find? fun s => ¬(s ∈ A.transitions.keys ∧ s ∈ B.transitions.keys))
      (fun C => C.Built ∧ C.size = A.size * B.size) (A.product B alphabet) := by
  obtain ⟨T, rfl⟩ := hA.exists_stored
  obtain ⟨U, rfl⟩ := hB.exists_stored
  have hstored := T.product_stored U alphabet
  rw [hstored, SymbolMap.keys_map, SymbolMap.keys_map]
  refine inRange_mapError (fun e => ?_) fun C hC => ?_
  · rw [map_eq_error_iff]
    exact WeightedAutomaton.product_eq_error_iff
  · rw [hC] at hstored
    refine ⟨.product hA hB hstored, ?_⟩
    rw [WeightedAutomaton.product_eq_map] at hC
    obtain ⟨V, hV, rfl⟩ := map_eq_ok_iff.mp hC
    obtain ⟨_, _, rfl⟩ := map_eq_ok_iff.mp hV
    rfl

end StoredAutomaton.Built

end PathSum
