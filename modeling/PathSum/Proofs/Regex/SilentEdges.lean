import PathSum.Proofs.Automaton.Forward
import PathSum.Proofs.Graph.Reachability
import PathSum.Proofs.Matrix.Boolean
import PathSum.Regex.Compiled
import PathSum.Regex.Edges

/-!
# Removing silent edges

The automaton without silent edges is in a state after a word if and only if the word can be read on
the way to that state, for any automaton with silent edges, cycles of them included.

* `path_nil_iff`: the closure relates the states that silent edges alone lead between.
* `path_cons_iff`: a path that reads a symbol is silent up to an edge for it.
* `forwardFrom_withoutSilent`: a vector that is closed under silent edges stays so after each
  symbol, and marks the states at the ends of the paths that read the word.
* `removeSilent_eq_ok`: matrices of one shape pass all checks.
-/

namespace PathSum.Regex.Nfa

open PathSum.Graph

variable {nfa : Nfa} {i j k : Fin nfa.size} {c : Char} {word : List Char}

/-! ## Silent paths -/

theorem path_nil_of_walk {len : Nat} (walk : Walk nfa.silent len i j) : nfa.Path i [] j := by
  induction walk with
  | nil i => exact .nil i
  | cons hedge _ ih => exact .silent hedge ih

theorem Path.split (path : nfa.Path i word k) :
    (word = [] → ∃ len, Walk nfa.silent len i k) ∧
      (∀ c rest, word = c :: rest → ∃ A a b, nfa.labelled.get? c = some A ∧
        nfa.Path i [] a ∧ A.entry a b = true ∧ nfa.Path b rest k) := by
  -- both halves at once: a silent edge in front keeps either form, a symbol leaves only the second.
  induction path with
  | nil i => exact ⟨fun _ => ⟨0, .nil i⟩, fun _ _ h => nomatch h⟩
  | silent hedge _ ih =>
    constructor
    · intro hword
      obtain ⟨len, walk⟩ := ih.1 hword
      exact ⟨len + 1, .cons hedge walk⟩
    · intro c rest hword
      obtain ⟨A, a, b, known, before, hab, after⟩ := ih.2 c rest hword
      exact ⟨A, a, b, known, .silent hedge before, hab, after⟩
  | @read i j k c word A known hedge rest _ =>
    constructor
    · intro hword
      exact nomatch hword
    · intro c' rest' hword
      obtain ⟨rfl, rfl⟩ := List.cons.inj hword
      exact ⟨A, i, j, known, .nil i, hedge, rest⟩

/-- Silent edges alone lead where the closure says. -/
theorem path_nil_iff : nfa.Path i [] j ↔ nfa.silentClosure.entry i j = true := by
  rw [silentClosure, reflexiveClosure_iff_walk]
  constructor
  · intro path
    exact path.split.1 rfl
  · rintro ⟨len, walk⟩
    exact path_nil_of_walk walk

/-- A path that reads a symbol is silent up to an edge for it. -/
theorem path_cons_iff :
    nfa.Path i (c :: word) k ↔ ∃ A a b, nfa.labelled.get? c = some A ∧ nfa.Path i [] a ∧
      A.entry a b = true ∧ nfa.Path b word k := by
  constructor
  · intro path
    exact path.split.2 c word rfl
  · rintro ⟨A, a, b, known, before, hedge, after⟩
    exact before.append (.read known hedge after)

/-! ## The automaton without silent edges -/

/-- A vector that marks, with a state, all states that silent edges lead to. -/
def Closed (nfa : Nfa) (v : Vector Bool nfa.size) : Prop :=
  ∀ i j, v.get i = true → nfa.Path i [] j → v.get j = true

theorem get_unit_iff {n : Nat} {state i : Fin n} : (unit state).get i = true ↔ i = state := by
  rw [unit, get_ofFn, decide_eq_true_eq]

theorem get_initial_iff : nfa.withoutSilent.initial.get i = true ↔ nfa.Path nfa.start [] i := by
  show (Matrix.vecMul .boolean (unit nfa.start) nfa.silentClosure).get i = true ↔ _
  rw [Matrix.get_vecMul_boolean_iff, path_nil_iff]
  constructor
  · rintro ⟨s, hs, hentry⟩
    exact get_unit_iff.mp hs ▸ hentry
  · intro hentry
    exact ⟨nfa.start, get_unit_iff.mpr rfl, hentry⟩

theorem get_final_iff : nfa.withoutSilent.final.get i = true ↔ nfa.Path i [] nfa.accept := by
  show (nfa.silentClosure.mulVec .boolean (unit nfa.accept)).get i = true ↔ _
  rw [Matrix.get_mulVec_boolean_iff, path_nil_iff]
  constructor
  · rintro ⟨s, hentry, hs⟩
    exact get_unit_iff.mp hs ▸ hentry
  · intro hentry
    exact ⟨nfa.accept, hentry, get_unit_iff.mpr rfl⟩

/-- An entry for a symbol: an edge for it, with silent edges before and after. The closure is
reflexive, so there need not be any. -/
theorem entry_transition_iff {A : Matrix Bool nfa.size nfa.size} :
    (compose (compose nfa.silentClosure A) nfa.silentClosure).entry i j = true ↔
      ∃ a b, nfa.Path i [] a ∧ A.entry a b = true ∧ nfa.Path b [] j := by
  rw [compose_eq_mul, compose_eq_mul, Matrix.entry_mul_boolean_iff]
  simp only [Matrix.entry_mul_boolean_iff, path_nil_iff]
  constructor
  · rintro ⟨b, ⟨a, before, hedge⟩, after⟩
    exact ⟨a, b, before, hedge, after⟩
  · rintro ⟨a, b, before, hedge, after⟩
    exact ⟨b, ⟨a, before, hedge⟩, after⟩

theorem closed_initial : nfa.Closed nfa.withoutSilent.initial := by
  intro i j hi path
  rw [get_initial_iff] at *
  exact hi.append path

theorem closed_vecMul {v : Vector Bool nfa.size} {A : Matrix Bool nfa.size nfa.size} :
    nfa.Closed (Matrix.vecMul .boolean v
      (compose (compose nfa.silentClosure A) nfa.silentClosure)) := by
  -- the matrix ends with the closure, so whatever `v` marked, the product is closed.
  intro i j hi path
  rw [Matrix.get_vecMul_boolean_iff] at *
  obtain ⟨s, hs, hsi⟩ := hi
  obtain ⟨a, b, before, hedge, after⟩ := entry_transition_iff.mp hsi
  exact ⟨s, hs, entry_transition_iff.mpr ⟨a, b, before, hedge, after.append path⟩⟩

/-- **What a run preserves.** From a closed vector, the states after a word are the ends of the
paths that read it from a marked state. -/
theorem forwardFrom_withoutSilent {v : Vector Bool nfa.size} (hv : nfa.Closed v)
    (known : ∀ c ∈ word, c ∈ nfa.labelled.keys) :
    ∃ u, nfa.withoutSilent.forwardFrom v word = .ok u ∧ nfa.Closed u ∧
      ∀ k, u.get k = true ↔ ∃ i, v.get i = true ∧ nfa.Path i word k := by
  induction word generalizing v with
  | nil =>
    -- a silent path from a marked state ends in a marked state, since `v` is closed.
    refine ⟨v, rfl, hv, fun k => ⟨fun hk => ⟨k, hk, .nil k⟩, ?_⟩⟩
    rintro ⟨i, hi, path⟩
    exact hv i k hi path
  | cons c word ih =>
    obtain ⟨A, hA⟩ := SymbolMap.mem_keys_iff.mp (known c (List.mem_cons_self ..))
    have hlookup : nfa.withoutSilent.transitions.lookup c =
        .ok (compose (compose nfa.silentClosure A) nfa.silentClosure) := by
      rw [SymbolMap.lookup_eq_ok_iff, SymbolMap.get?_map, hA]
      rfl
    obtain ⟨u, hu, hclosed, hget⟩ :=
      ih (closed_vecMul (v := v) (A := A)) fun d hd => known d (List.mem_cons_of_mem _ hd)
    refine ⟨u, ?_, hclosed, fun k => ?_⟩
    · rw [WeightedAutomaton.forwardFrom_cons, hlookup]
      exact hu
    · rw [hget]
      simp only [Matrix.get_vecMul_boolean_iff, entry_transition_iff, path_cons_iff]
      constructor
      · rintro ⟨j, ⟨i, hi, a, b, before, hedge, after⟩, rest⟩
        exact ⟨i, hi, A, a, b, hA, before, hedge, after.append rest⟩
      · rintro ⟨i, hi, A', a, b, hA', before, hedge, rest⟩
        obtain rfl : A = A' := Option.some.inj (hA.symm.trans hA')
        -- silent edges after the symbol are left to the rest of the path.
        exact ⟨b, ⟨i, hi, a, b, before, hedge, .nil b⟩, rest⟩

theorem forward_withoutSilent (known : ∀ c ∈ word, c ∈ nfa.labelled.keys) :
    ∃ u, nfa.withoutSilent.forward word = .ok u ∧
      ∀ k, u.get k = true ↔ nfa.Path nfa.start word k := by
  obtain ⟨u, hu, _, hget⟩ := forwardFrom_withoutSilent closed_initial known
  refine ⟨u, hu, fun k => ?_⟩
  rw [hget]
  constructor
  · rintro ⟨i, hi, path⟩
    exact (get_initial_iff.mp hi).append path
  · intro path
    exact ⟨nfa.start, get_initial_iff.mpr (.nil _), path⟩

theorem accepts_withoutSilent (known : ∀ c ∈ word, c ∈ nfa.labelled.keys) :
    ∃ b, nfa.withoutSilent.accepts word = .ok b ∧ (b = true ↔ nfa.Accepts word) := by
  obtain ⟨u, hu, hget⟩ := forward_withoutSilent known
  refine ⟨Weights.boolean.dot u nfa.withoutSilent.final, ?_, ?_⟩
  · rw [WeightedAutomaton.accepts, WeightedAutomaton.run, hu]
    rfl
  · rw [dot_boolean_iff]
    constructor
    · rintro ⟨i, hi, hfinal⟩
      have path := ((hget i).mp hi).append (get_final_iff.mp hfinal)
      rwa [List.append_nil] at path
    · intro path
      exact ⟨nfa.accept, (hget _).mpr path, get_final_iff.mpr (.nil _)⟩

theorem activeStates_withoutSilent (known : ∀ c ∈ word, c ∈ nfa.labelled.keys) :
    ∃ states, nfa.withoutSilent.activeStates word = .ok states ∧ ∀ state,
      states.contains state = true ↔
        ∃ h : state < nfa.size, nfa.Path nfa.start word ⟨state, h⟩ := by
  obtain ⟨u, hu, hget⟩ := forward_withoutSilent known
  refine ⟨StateSet.ofFlags u.toList, ?_, fun state => ?_⟩
  · rw [WeightedAutomaton.activeStates, hu]
    rfl
  · rw [StateSet.contains_ofFlags, List.getD_eq_getElem?_getD, Vector.getElem?_toList]
    constructor
    · intro h
      -- a flag beyond the states would be `false`.
      have hlt : state < nfa.size := Nat.lt_of_not_le fun hle => by
        rw [Vector.getElem?_eq_none hle] at h
        exact Bool.false_ne_true h
      rw [Vector.getElem?_eq_getElem hlt] at h
      exact ⟨hlt, (hget ⟨state, hlt⟩).mp h⟩
    · rintro ⟨hlt, path⟩
      rw [Vector.getElem?_eq_getElem hlt]
      exact (hget ⟨state, hlt⟩).mpr path

/-! ## The checks of shapes -/

/-- Matrices of one shape pass all checks, and composing relations is multiplying matrices. So the
function with checks has a result, which is the one without silent edges. -/
theorem removeSilent_eq_ok (nfa : Nfa) : nfa.removeSilent = .ok nfa.withoutSilent := by
  have hclosure : (AnyMatrix.of nfa.silent).transitiveClosure true =
      .ok (AnyMatrix.of nfa.silentClosure) := AnyMatrix.transitiveClosure_of ..
  -- a matrix is multiplied from both sides, and each time its shape is as it should be.
  have htransitions : nfa.labelled.tryMap (fun A => do
        let left ← (AnyMatrix.of nfa.silentClosure).mul .boolean (.of A)
        left.mul .boolean (.of nfa.silentClosure)) =
      .ok (nfa.withoutSilent.transitions.map AnyMatrix.of) := by
    rw [SymbolMap.map_map]
    refine SymbolMap.tryMap_eq_ok (fun A => ?_) nfa.labelled
    rw [AnyMatrix.mul_of]
    show (AnyMatrix.of _).mul .boolean _ = _
    rw [AnyMatrix.mul_of, Function.comp_apply, compose_eq_mul, compose_eq_mul]
  have hinitial : AnyMatrix.vecMul .boolean (unit nfa.start).toArray (.of nfa.silentClosure) =
      .ok nfa.withoutSilent.initial.toArray := AnyMatrix.vecMul_of ..
  have hfinal : (AnyMatrix.of nfa.silentClosure).mulVec .boolean (unit nfa.accept).toArray =
      .ok nfa.withoutSilent.final.toArray := AnyMatrix.mulVec_of ..
  calc nfa.removeSilent
      = WeightedAutomaton.ofParts .boolean nfa.withoutSilent.initial.toArray
          nfa.withoutSilent.final.toArray (nfa.withoutSilent.transitions.map AnyMatrix.of) := by
        rw [removeSilent, hclosure]
        show (nfa.labelled.tryMap _ >>= _) = _
        rw [htransitions]
        show (AnyMatrix.vecMul .boolean _ _ >>= _) = _
        rw [hinitial]
        show ((AnyMatrix.of nfa.silentClosure).mulVec .boolean _ >>= _) = _
        rw [hfinal]
        rfl
    _ = .ok nfa.withoutSilent := WeightedAutomaton.ofParts_eq_ok ..

/-! ## All together -/

/-- **Removing silent edges loses and adds nothing.** It succeeds for every automaton. After any
word of known symbols, the states that are active are those at the ends of the paths that read the
word, and the word is accepted if and only if such a path ends in the accepting state. -/
theorem removeSilent_exact (nfa : Nfa) :
    ∃ A, nfa.removeSilent = .ok A ∧ ∀ word, (∀ c ∈ word, c ∈ nfa.labelled.keys) →
      (∃ states, A.activeStates word = .ok states ∧ ∀ state,
        states.contains state = true ↔
          ∃ h : state < nfa.size, nfa.Path nfa.start word ⟨state, h⟩) ∧
      ∃ b, A.accepts word = .ok b ∧ (b = true ↔ nfa.Path nfa.start word nfa.accept) := by
  refine ⟨nfa.withoutSilent, removeSilent_eq_ok nfa, fun word known => ?_⟩
  exact ⟨activeStates_withoutSilent known, accepts_withoutSilent known⟩

/-- An automaton that goes round in silent cycles before and after its only edge with a symbol. -/
def cycles : Nfa where
  size := 4
  start := 0
  accept := 2
  silent := relation 4 [(0, 1), (1, 0), (2, 3), (3, 2)]
  labelled := SymbolMap.ofKeys ['a'] (by decide) fun _ => relation 4 [(1, 3)]
  alphabet := .ofList ['a']

theorem removeSilent_exact_cycles : ∃ A states, cycles.removeSilent = .ok A ∧
    A.activeStates ['a'] = .ok states ∧ states.contains 2 = true ∧ A.accepts ['a'] = .ok true := by
  obtain ⟨A, hA, hwords⟩ := removeSilent_exact cycles
  obtain ⟨⟨states, hstates, hmem⟩, b, hb, hiff⟩ := hwords ['a'] (by simp [cycles])
  have path : cycles.Path cycles.start ['a'] cycles.accept := by
    refine .silent (j := (1 : Fin 4)) (by decide) (.read (j := (3 : Fin 4)) rfl (by decide) ?_)
    exact .silent (j := (2 : Fin 4)) (by decide) (.nil _)
  have htrue : b = true := hiff.mpr path
  exact ⟨A, states, hA, hstates, (hmem 2).mpr ⟨by decide, path⟩, htrue ▸ hb⟩

end PathSum.Regex.Nfa
