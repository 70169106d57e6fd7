import PathSum.Proofs.Automaton.Acceptance
import PathSum.Proofs.Graph.Reachability
import PathSum.Proofs.StateSet.Histories

/-!
# What sets of states are used for

The transitive closure keeps a set for each vertex, and the queries of Boolean automata make sets
from flags. Here both are computed over sets of any kind, where making one may fail. Over documented
bit sets nothing fails, and the answers are those over the digits of numbers: no answer depends on
how a set is kept.

* `Tracks`: a row of bit sets that have the members of a row of sets over digits. Both steps of the
  closure keep it (`exists_successorsOver`, `tracks_allowStopOver`), so the whole loop does.
* `transitiveClosureOver_iff_walk`: the closure is reachability over any documented bit sets.
* `StoredAutomaton.activeStatesOver_exact`: the states after a word are the ends of its paths.
* `StoredAutomaton.acceptsEmptyOver_eq`: the answer for the empty word is the same.
-/

namespace PathSum

variable {β : Type} {B : BitSets β}

/-! ## Transitive closure -/

namespace Graph

variable {n : Nat}

/-- The targets of the edges of a vertex, and also the vertex itself if `reflexive`, in a set of the
kind `K`. -/
def rowOver (K : StateSets β) (A : Matrix Bool n n) (reflexive : Bool) (i : Fin n) : Option β := do
  let row ← K.ofFlags (A.row i).toList
  if reflexive then K.insert row i else return row

/-- The rows of all vertices. -/
def successorsOver (K : StateSets β) (A : Matrix Bool n n) (reflexive : Bool) :
    Option (Vector β n) :=
  Vector.ofFnM (rowOver K A reflexive)

/-- Allows vertex `k` as a stop. -/
def allowStopOver (K : StateSets β) (reach : Vector β n) (k : Fin n) : Vector β n :=
  let beyond := reach.get k
  reach.map fun row => if K.contains row k then K.union row beyond else row

/-- The closure, with a set of the kind `K` for each vertex. -/
def transitiveClosureOver (K : StateSets β) (A : Matrix Bool n n) (reflexive : Bool) :
    Option (Matrix Bool n n) :=
  (successorsOver K A reflexive).map fun rows =>
    let reach := Fin.foldl n (allowStopOver K) rows
    .ofFn fun i j => K.contains (reach.get i) j

/-- Bit sets in which those bits are set that are members of the sets over digits. Their lengths may
be others. -/
def Tracks (B : BitSets β) (rows : Vector β n) (reach : Vector StateSet n) : Prop :=
  ∀ (i : Fin n) (s : Nat), B.contains (rows.get i) s = (reach.get i).contains s

/-- A row can be made, and it has the members of the row over digits. No bit is set past the end,
since the row is as long as there are vertices. -/
theorem exists_rowOver (documented : B.Documented) (A : Matrix Bool n n) (reflexive : Bool)
    (i : Fin n) :
    ∃ row, rowOver B.states A reflexive i = some row ∧
      ∀ s, B.contains row s = ((successors A reflexive).get i).contains s := by
  obtain ⟨row, hflags, hrep⟩ := documented.represents_ofFlags (A.row i).toList
  have hstates : B.states.ofFlags (A.row i).toList = some row := hflags
  have hmembers (s : Nat) :
      B.contains row s = (StateSet.ofFlags (A.row i).toList).contains s := by
    rw [Bool.eq_iff_iff, hrep.contains_iff, Extent.mem_ofFlags, StateSet.contains_ofFlags_iff]
  rw [rowOver, hstates, successors, get_ofFn]
  cases reflexive with
  | false => exact ⟨row, rfl, hmembers⟩
  | true =>
    -- the vertex of the row is put into the set that the flags gave.
    obtain ⟨row', hinsert, hrep'⟩ := documented.represents_insert hrep i
    refine ⟨row', hinsert, ?_⟩
    intro s
    show B.contains row' s = ((StateSet.ofFlags (A.row i).toList).insert i).contains s
    rw [StateSet.contains_insert, ← hmembers, Bool.eq_iff_iff, hrep'.contains_iff, Extent.insert,
      Finset.mem_insert, ← hrep.contains_iff, Bool.or_eq_true, decide_eq_true_eq, or_comm,
      eq_comm (a := s)]

theorem exists_successorsOver (documented : B.Documented) (A : Matrix Bool n n)
    (reflexive : Bool) :
    ∃ rows, successorsOver B.states A reflexive = some rows ∧
      Tracks B rows (successors A reflexive) := by
  choose row hrow hmembers using exists_rowOver documented A reflexive
  refine ⟨Vector.ofFn row, ?_, ?_⟩
  · rw [successorsOver, funext hrow]
    exact Vector.ofFnM_pure
  · intro i s
    rw [get_ofFn]
    exact hmembers i s

/-- One vertex more as a stop, for both kinds of rows. A row takes up the row of the stop if it has
the stop for a member, and both kinds agree on that. -/
theorem tracks_allowStopOver (documented : B.Documented) {rows : Vector β n}
    {reach : Vector StateSet n} (h : Tracks B rows reach) (k : Fin n) :
    Tracks B (allowStopOver B.states rows k) (allowStop reach k) := by
  intro i s
  have hstop : B.states.contains (rows.get i) k = (reach.get i).contains k := by
    show B.containsState (rows.get i) k = _
    rw [documented.containsState_eq, h]
  rw [allowStopOver, allowStop, get_map, get_map, hstop]
  by_cases hk : (reach.get i).contains k = true
  · rw [if_pos hk, if_pos hk, StateSet.contains_union, ← h, ← h]
    exact documented.contains_unionStates ..
  · rw [if_neg hk, if_neg hk]
    exact h i s

/-- The loop over all stops. The induction is on how many of them there were. -/
theorem tracks_foldl (documented : B.Documented) {rows : Vector β n} {reach : Vector StateSet n}
    (h : Tracks B rows reach) :
    Tracks B (Fin.foldl n (allowStopOver B.states) rows) (Fin.foldl n allowStop reach) := by
  have hloop (m : Nat) (hm : m ≤ n) :
      Tracks B (Fin.foldl m (fun rows k => allowStopOver B.states rows (k.castLE hm)) rows)
        (Fin.foldl m (fun reach k => allowStop reach (k.castLE hm)) reach) := by
    induction m with
    | zero => exact h
    | succ m ih =>
      rw [Fin.foldl_succ_last, Fin.foldl_succ_last]
      exact tracks_allowStopOver documented (ih (Nat.le_of_succ_le hm)) ⟨m, hm⟩
  exact hloop n (Nat.le_refl n)

/-- **No answer depends on how the rows are kept**, since in the end they are only asked for their
members. -/
theorem transitiveClosureOver_eq (documented : B.Documented) (A : Matrix Bool n n)
    (reflexive : Bool) :
    transitiveClosureOver B.states A reflexive = some (transitiveClosure A reflexive) := by
  obtain ⟨rows, hrows, htracks⟩ := exists_successorsOver documented A reflexive
  have hreach := tracks_foldl documented htracks
  rw [transitiveClosureOver, hrows, Option.map_some, Option.some_inj]
  apply Matrix.ext_entry
  intro i j
  rw [Matrix.entry_ofFn, transitiveClosure, Matrix.entry_ofFn]
  show B.containsState _ _ = _
  rw [documented.containsState_eq]
  exact hreach i j

/-- **Over documented bit sets, the closure is reachability.** -/
theorem transitiveClosureOver_iff_walk (documented : B.Documented) (A : Matrix Bool n n)
    (reflexive : Bool) :
    ∃ C, transitiveClosureOver B.states A reflexive = some C ∧
      ∀ i j, C.entry i j = true ↔ WalkOrStay A reflexive i j := by
  refine ⟨_, transitiveClosureOver_eq documented A reflexive, ?_⟩
  intro i j
  exact transitiveClosure_iff_walk

end Graph

/-! ## Queries of automata -/

namespace StoredAutomaton

variable {σ : Type} [DecidableEq σ]

/-- The states after a word, in a set of the kind `K`. -/
def activeStatesOver (K : StateSets β) (A : StoredAutomaton σ Bool) (word : List σ) :
    Except (Fault σ) (Option β) :=
  (A.forward word).map fun v => K.ofFlags v.toList

omit [DecidableEq σ] in
/-- Whether the initial states and the final states intersect, as sets of the kind `K`. -/
def acceptsEmptyOver (K : StateSets β) (A : StoredAutomaton σ Bool) : Option Bool := do
  let initial ← K.ofFlags A.initial.toList
  let final ← K.ofFlags A.final.toList
  return K.intersects initial final

/-- **The active states are the ends of the paths**, over any documented bit sets. -/
theorem activeStatesOver_exact (documented : B.Documented) {A : StoredAutomaton σ Bool}
    (built : A.Built) (boolean : A.weights = .boolean) {word : List σ}
    (known : ∀ s ∈ word, s ∈ A.transitions.keys) :
    ∃ states members, A.activeStatesOver B.states word = .ok (some states) ∧
      B.states.Denotes states members ∧
      ∀ q, q ∈ members ↔ ∃ p, A.initial[p]? = some true ∧ A.Path p word q := by
  obtain ⟨T, rfl⟩ := built.exists_stored
  rw [SymbolMap.keys_map] at known
  obtain ⟨u, hu, hpaths⟩ := WeightedAutomaton.contains_forward_iff boolean known
  obtain ⟨states, hstates, hrep⟩ := documented.represents_ofFlags u.toList
  refine ⟨states, _, ?_, documented.denotes hrep, ?_⟩
  · -- the forward vector is the same whatever the states are kept in.
    have hflags : B.states.ofFlags u.toArray.toList = some states := hstates
    rw [activeStatesOver, T.forward_stored, hu]
    show Except.ok (B.states.ofFlags u.toArray.toList) = _
    rw [hflags]
  · intro q
    rw [← hpaths, StateSet.contains_ofFlags_iff, Extent.mem_ofFlags]

omit [DecidableEq σ] in
/-- The answer for the empty word does not depend on how sets are kept either. -/
theorem acceptsEmptyOver_eq (documented : B.Documented) (A : StoredAutomaton σ Bool) :
    A.acceptsEmptyOver B.states = some A.acceptsEmpty := by
  obtain ⟨initial, hinitial, hrep⟩ := documented.represents_ofFlags A.initial.toList
  obtain ⟨final, hfinal, hrep'⟩ := documented.represents_ofFlags A.final.toList
  have hinitial' : B.states.ofFlags A.initial.toList = some initial := hinitial
  have hfinal' : B.states.ofFlags A.final.toList = some final := hfinal
  rw [acceptsEmptyOver, hinitial', hfinal']
  show some (B.states.intersects initial final) = some A.acceptsEmpty
  rw [Option.some_inj, Bool.eq_iff_iff, documented.intersects_iff hrep hrep', acceptsEmpty,
    StateSet.intersects_iff]
  simp only [Extent.mem_ofFlags, StateSet.contains_ofFlags_iff]

end StoredAutomaton

end PathSum
