import PathSum.Automaton.Runs
import PathSum.Proofs.Shapes.Automata

/-!
# What Boolean automata answer

An automaton with Boolean weights is asked three things: which states it may be in after a word,
whether it accepts the word, and whether it accepts the empty word. The first answer is a set made
from the flags of a vector, the second a product of two vectors, the third a test whether two sets
intersect. All three come from the paths of the automaton.

* `dot_boolean_eq_intersects`: a product of flags is a test whether the sets of flags intersect.
* `forwardFrom_boolean`: which states are marked after a word, whatever was marked before it.
* `contains_forward_iff`: so the states after a word are the ends of the paths that read it.
* **`StoredAutomaton.acceptance_exact`**: the answers of every automaton that comes about.
-/

namespace PathSum

/-! ## Flags -/

theorem contains_ofFlags_toList_iff {n : Nat} {v : Vector Bool n} {q : Nat} :
    (StateSet.ofFlags v.toList).contains q = true ↔ ∃ hq : q < n, v.get ⟨q, hq⟩ = true := by
  rw [StateSet.contains_ofFlags_iff, ← getElem?_toArray_iff, ← Vector.toList_toArray,
    Array.getElem?_toList]

/-- Some index has both flags. The sum over all indices that the run computes asks the same question
as the sets of the indices with a flag. -/
theorem dot_boolean_eq_intersects {n : Nat} (u v : Vector Bool n) :
    Weights.boolean.dot u v = (StateSet.ofFlags u.toList).intersects (.ofFlags v.toList) := by
  rw [Bool.eq_iff_iff, dot_boolean_iff, StateSet.intersects_iff]
  simp only [contains_ofFlags_toList_iff]
  constructor
  · rintro ⟨i, hu, hv⟩
    exact ⟨i, ⟨i.isLt, hu⟩, i.isLt, hv⟩
  · rintro ⟨q, ⟨hq, hu⟩, _, hv⟩
    exact ⟨⟨q, hq⟩, hu, hv⟩

/-! ## States after a word -/

variable {σ : Type} [DecidableEq σ]

namespace WeightedAutomaton

variable {A : WeightedAutomaton σ Bool} {word : List σ}

/-- **What a run preserves.** After a word, those states are marked to which the word can be read
from a state that was marked before it. -/
theorem forwardFrom_boolean (boolean : A.weights = .boolean)
    (known : ∀ s ∈ word, s ∈ A.transitions.keys) (v : Vector Bool A.size) :
    ∃ u, A.forwardFrom v word = .ok u ∧ ∀ k : Fin A.size,
      u.get k = true ↔ ∃ i : Fin A.size, v.get i = true ∧ A.stored.Path i word k := by
  induction word generalizing v with
  | nil =>
    refine ⟨v, rfl, fun k => ⟨fun hk => ⟨k, hk, .nil k.isLt⟩, ?_⟩⟩
    rintro ⟨i, hi, path⟩
    obtain ⟨_, hik⟩ := StoredAutomaton.path_nil_iff.mp path
    exact Fin.ext hik ▸ hi
  | cons s word ih =>
    obtain ⟨M, hM⟩ := SymbolMap.mem_keys_iff.mp (known s (List.mem_cons_self ..))
    have hstored : A.stored.transitions.get? s = some (.of M) := by
      rw [SymbolMap.get?_map, hM]
      rfl
    obtain ⟨u, hu, hget⟩ := ih (fun t ht => known t (List.mem_cons_of_mem _ ht))
      (Matrix.vecMul A.weights v M)
    refine ⟨u, ?_, fun k => ?_⟩
    · rw [forwardFrom_cons, SymbolMap.lookup_eq_ok_iff.mpr hM]
      exact hu
    · -- the state after the first symbol is where the rest of the path begins.
      rw [hget]
      simp only [boolean, Matrix.get_vecMul_boolean_iff, StoredAutomaton.path_cons_iff hstored,
        AnyMatrix.get?_of_iff]
      constructor
      · rintro ⟨j, ⟨i, hi, hedge⟩, rest⟩
        exact ⟨i, hi, j, ⟨j.isLt, hedge⟩, rest⟩
      · rintro ⟨i, hi, j, ⟨hj, hedge⟩, rest⟩
        exact ⟨⟨j, hj⟩, ⟨i, hi, hedge⟩, rest⟩

theorem contains_forward_iff (boolean : A.weights = .boolean)
    (known : ∀ s ∈ word, s ∈ A.transitions.keys) :
    ∃ u, A.forward word = .ok u ∧ ∀ q, (StateSet.ofFlags u.toList).contains q = true ↔
      ∃ p, A.stored.initial[p]? = some true ∧ A.stored.Path p word q := by
  obtain ⟨u, hu, hget⟩ := forwardFrom_boolean boolean known A.initial
  refine ⟨u, hu, fun q => ?_⟩
  simp only [contains_ofFlags_toList_iff, getElem?_toArray_iff, hget]
  constructor
  · rintro ⟨hq, i, hi, path⟩
    exact ⟨i, ⟨i.isLt, hi⟩, path⟩
  · rintro ⟨p, ⟨hp, hinitial⟩, path⟩
    exact ⟨path.lt_size, ⟨p, hp⟩, hinitial, path⟩

theorem accepts_eq_intersects (boolean : A.weights = .boolean) {u : Vector Bool A.size}
    (hu : A.forward word = .ok u) :
    A.accepts word = .ok ((StateSet.ofFlags u.toList).intersects (.ofFlags A.final.toList)) := by
  rw [← dot_boolean_eq_intersects, ← boolean, accepts, run, hu]
  rfl

end WeightedAutomaton

/-! ## All together -/

namespace StoredAutomaton

/-- A set of states, and its list of members, has the states that a word leads to. -/
structure Occupied (A : StoredAutomaton σ Bool) (word : List σ) (states : StateSet) : Prop where
  contains_iff : ∀ q, states.contains q = true ↔ ∃ p, A.initial[p]? = some true ∧ A.Path p word q
  mem_toList_iff : ∀ q, q ∈ states.toList ↔ ∃ p, A.initial[p]? = some true ∧ A.Path p word q
  ascending : states.toList.Pairwise (· < ·)

/-- **The occupied states are the reachable states, and every query agrees.** This holds of Boolean
automata from parts, of products and of compiled patterns. After a word of known symbols, the active
states are those to which a path from an initial state reads the word, in ascending order, and the
word is accepted if and only if one of them is final. The empty word is accepted if and only if the
answer for it says so. With an unknown symbol, both queries report the first one. -/
theorem acceptance_exact {A : StoredAutomaton σ Bool} (built : A.Built)
    (boolean : A.weights = .boolean) :
    (∀ word, (∀ s ∈ word, s ∈ A.transitions.keys) → ∃ states b,
      A.activeStates word = .ok states ∧ A.Occupied word states ∧ A.accepts word = .ok b ∧
        (b = true ↔ ∃ q, states.contains q = true ∧ A.final[q]? = some true)) ∧
    A.accepts [] = .ok A.acceptsEmpty ∧
    ∀ word symbol, A.transitions.unknown? word = some symbol →
      A.activeStates word = .error (.unknown ⟨symbol⟩) ∧
        A.accepts word = .error (.unknown ⟨symbol⟩) := by
  obtain ⟨T, rfl⟩ := built.exists_stored
  have haccepts (word : List σ) : T.stored.accepts word = (T.accepts word).mapError .unknown :=
    T.run_stored word
  refine ⟨fun word known => ?_, ?_, fun word symbol unknown => ?_⟩
  · rw [SymbolMap.keys_map] at known
    obtain ⟨u, hu, hstates⟩ := WeightedAutomaton.contains_forward_iff boolean known
    have hactive : T.stored.activeStates word = .ok (.ofFlags u.toList) := by
      rw [T.activeStates_stored, WeightedAutomaton.activeStates, hu]
      rfl
    have haccepted : T.stored.accepts word =
        .ok ((StateSet.ofFlags u.toList).intersects (.ofFlags T.final.toList)) := by
      rw [haccepts, WeightedAutomaton.accepts_eq_intersects boolean hu]
      rfl
    refine ⟨_, _, hactive, ⟨hstates, fun q => ?_, StateSet.pairwise_toList _⟩, haccepted, ?_⟩
    · rw [StateSet.mem_toList, hstates]
    · simp only [StateSet.intersects_iff, contains_ofFlags_toList_iff (v := T.final),
        getElem?_toArray_iff]
  · -- without a symbol, the weights before the word are those after it.
    rw [haccepts, WeightedAutomaton.accepts_eq_intersects boolean rfl]
    rfl
  · -- both queries read the word first, and there they stop.
    rw [SymbolMap.unknown?_map] at unknown
    have herror : T.forward word = .error ⟨symbol⟩ :=
      WeightedAutomaton.forward_eq_error_iff.mpr unknown
    constructor
    · rw [T.activeStates_stored, WeightedAutomaton.activeStates, herror]
      rfl
    · rw [haccepts, WeightedAutomaton.accepts, WeightedAutomaton.run_eq_error_iff.mpr herror]
      rfl

/-- From the first of three states, two paths that read the same word lead to the last one. -/
def forked : StoredAutomaton Char Bool :=
  ⟨.boolean, 3, #[true, false, false], #[false, false, true],
    .ofList [('a', .of (m := 3) (n := 3) (.ofFn fun i j => i.val.blt j || j.val.beq 2))]⟩

theorem acceptance_exact_forked : forked.Built ∧ ∃ states,
    forked.activeStates ['a', 'a'] = .ok states ∧ states.contains 2 = true ∧
      forked.accepts ['a', 'a'] = .ok true ∧ forked.accepts [] = .ok forked.acceptsEmpty ∧
      forked.accepts ['a', 'b', 'c'] = .error (.unknown ⟨'b'⟩) := by
  have hparts : ofParts forked.weights forked.initial forked.final forked.transitions =
      .ok forked := by rfl
  obtain ⟨hwords, hempty, hunknown⟩ := acceptance_exact (.ofParts hparts) rfl
  have hknown : ∀ s ∈ ['a', 'a'], s ∈ forked.transitions.keys := by
    show ∀ s ∈ ['a', 'a'], s ∈ ['a']
    simp
  obtain ⟨states, b, hactive, hoccupied, haccepts, hb⟩ := hwords ['a', 'a'] hknown
  have path : forked.Path 0 ['a', 'a'] 2 :=
    .cons (j := 1) rfl rfl (.cons (j := 2) rfl rfl (.nil (by decide)))
  have hmem : states.contains 2 = true := (hoccupied.contains_iff 2).mpr ⟨0, rfl, path⟩
  have htrue : b = true := hb.mpr ⟨2, hmem, rfl⟩
  exact ⟨.ofParts hparts, states, hactive, hmem, htrue ▸ haccepts, hempty,
    (hunknown ['a', 'b', 'c'] 'b' (by decide)).2⟩

end StoredAutomaton

end PathSum
