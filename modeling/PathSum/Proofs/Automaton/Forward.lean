import PathSum.Automaton.Basic

/-!
# Running over known and unknown symbols

An automaton reads a word as long as every symbol has a matrix, and stops with an error at the first
symbol that has none, whatever was read before.

* `SymbolMap.mapM_lookup_eq_error_iff`: a word is looked up symbol by symbol, and fails exactly on
  its first unknown symbol.
* `SymbolMap.foldlM_lookup`: a pass that looks up one symbol after the other is a pass over the
  values of the whole word, so it fails on the same symbol.
* `SymbolMap.foldlM_lookup_map`: a pass goes through a map if each of its steps does.
-/

namespace PathSum

variable {σ α : Type} [DecidableEq σ]

/-! ## Looking up a word -/

namespace SymbolMap

variable {β γ : Type} {map : SymbolMap σ β} {symbol : σ} {word : List σ}

theorem lookup_eq_ok_iff {value : β} :
    map.lookup symbol = .ok value ↔ map.get? symbol = some value := by
  rw [lookup]
  cases map.get? symbol with
  | none => simp
  | some x => simp

theorem lookup_eq_error (h : symbol ∉ map.keys) : map.lookup symbol = .error ⟨symbol⟩ := by
  rw [lookup]
  cases hget : map.get? symbol with
  | none => rfl
  | some x => exact absurd (mem_keys_iff.mpr ⟨x, hget⟩) h

/-- A word whose symbols are all known has a value for each. With these values, a pass over the word
can be stated without errors. -/
theorem exists_mapM_lookup_eq_ok (known : ∀ s ∈ word, s ∈ map.keys) :
    ∃ values, word.mapM map.lookup = .ok values := by
  induction word with
  | nil => exact ⟨[], rfl⟩
  | cons s word ih =>
    obtain ⟨x, hx⟩ := mem_keys_iff.mp (known s (List.mem_cons_self ..))
    obtain ⟨values, hvalues⟩ := ih fun t ht => known t (List.mem_cons_of_mem _ ht)
    refine ⟨x :: values, ?_⟩
    rw [List.mapM_cons, lookup_eq_ok_iff.mpr hx, hvalues]
    rfl

theorem mapM_lookup_eq_error {rest : List σ} (known : ∀ s ∈ word, s ∈ map.keys)
    (unknown : symbol ∉ map.keys) :
    (word ++ symbol :: rest).mapM map.lookup = .error ⟨symbol⟩ := by
  obtain ⟨values, hvalues⟩ := exists_mapM_lookup_eq_ok known
  rw [List.mapM_append, hvalues, List.mapM_cons, lookup_eq_error unknown]
  rfl

/-- The first symbol that is not known is reported, and nothing else is an error. What comes after
that symbol is not looked up any more. -/
theorem mapM_lookup_eq_error_iff {e : LookupError σ} :
    word.mapM map.lookup = .error e ↔ word.find? (· ∉ map.keys) = some e.symbol := by
  have first {s : σ} (hfind : word.find? (· ∉ map.keys) = some s) :
      word.mapM map.lookup = .error ⟨s⟩ := by
    obtain ⟨unknown, before, after, rfl, known⟩ := List.find?_eq_some_iff_append.mp hfind
    exact mapM_lookup_eq_error (fun t ht => by simpa using known t ht) (by simpa using unknown)
  constructor
  · intro h
    cases hfind : word.find? (· ∉ map.keys) with
    | none =>
      have known : ∀ s ∈ word, s ∈ map.keys := by simpa using hfind
      obtain ⟨values, hvalues⟩ := exists_mapM_lookup_eq_ok known
      exact nomatch hvalues.symm.trans h
    | some s =>
      cases (first hfind).symm.trans h
      rfl
  · exact first

/-- A pass that looks up one symbol after the other is a pass over all the values. So it can be
split: the lookups decide on errors, and the steps on the result. -/
theorem foldlM_lookup (f : γ → β → γ) (v : γ) :
    word.foldlM (fun v s => (map.lookup s).map (f v)) v =
      (word.mapM map.lookup).map (List.foldl f v) := by
  induction word generalizing v with
  | nil => rfl
  | cons s word ih =>
    rw [List.foldlM_cons, List.mapM_cons]
    cases map.lookup s with
    | error e => rfl
    | ok x =>
      refine (ih (f v x)).trans ?_
      cases word.mapM map.lookup <;> rfl

/-- If every step goes through two maps, one of what is carried and one of the values, then a pass
over a word does. -/
theorem foldlM_lookup_map {β' γ' : Type} {step : γ → β → γ} {step' : γ' → β' → γ'} {f : γ → γ'}
    {h : β → β'} (through : ∀ v x, f (step v x) = step' (f v) (h x)) (map : SymbolMap σ β) (v : γ)
    (word : List σ) :
    word.foldlM (fun v s => ((map.map h).lookup s).map (step' v)) (f v) =
      (word.foldlM (fun v s => (map.lookup s).map (step v)) v).map f := by
  refine foldlM_map (fun v s => ?_) v word
  rw [lookup_map]
  cases map.lookup s with
  | error e => rfl
  | ok x =>
    show Except.ok (step' (f v) (h x)) = .ok (f (step v x))
    rw [through]

end SymbolMap

/-! ## Automata -/

namespace WeightedAutomaton

variable {A : WeightedAutomaton σ α} {v : Vector α A.size} {word : List σ}

/-- A word is read matrix by matrix. -/
theorem forwardFrom_eq_map :
    A.forwardFrom v word =
      (word.mapM A.transitions.lookup).map (List.foldl (Matrix.vecMul A.weights) v) :=
  SymbolMap.foldlM_lookup ..

/-- Without an unknown symbol there is a result, and with one there is none. -/
theorem forward_eq_error_iff {e : LookupError σ} :
    A.forward word = .error e ↔ word.find? (· ∉ A.transitions.keys) = some e.symbol := by
  rw [← SymbolMap.mapM_lookup_eq_error_iff, forward, forwardFrom_eq_map, map_eq_error_iff]

/-- A word has a weight where the forward pass has a result. -/
theorem run_eq_error_iff {e : LookupError σ} :
    A.run word = .error e ↔ A.forward word = .error e :=
  map_eq_error_iff

theorem run_eq_error {symbol : σ} {rest : List σ} (known : ∀ s ∈ word, s ∈ A.transitions.keys)
    (unknown : symbol ∉ A.transitions.keys) :
    A.run (word ++ symbol :: rest) = .error ⟨symbol⟩ := by
  rw [run_eq_error_iff, forward, forwardFrom_eq_map,
    SymbolMap.mapM_lookup_eq_error known unknown]
  rfl

end WeightedAutomaton

end PathSum
