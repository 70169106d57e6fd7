import PathSum.Graph.Relations
import PathSum.Graph.Traversal

/-!
# The transitive closure is reachability

The closure allows one vertex after the other as a stop. The invariant of that loop is
`Allows A reflexive k reach`: with the vertices below `k` allowed, the sets hold exactly the
vertices that are reached through stops below `k`.

* `through_succ_iff`: a way through stops up to `k` either does without `k`, or goes to `k` and
  from there on, both without `k` as a stop.
* `allows_allowStop`: one step of the loop moves the invariant from `k` to `k + 1`.
* `transitiveClosure_iff_walk`: in the end every vertex is allowed, and ways are walks.
-/

namespace PathSum.Graph

variable {n : Nat} {A : Matrix Bool n n} {reflexive : Bool} {i j m : Fin n}

/-! ## Ways through allowed stops -/

/-- A way from one vertex to another that stops only at vertices below `k`. If `reflexive`, every
vertex also has a way to itself without an edge. -/
inductive Through (A : Matrix Bool n n) (reflexive : Bool) (k : Nat) : Fin n → Fin n → Prop where
  | edge {i j : Fin n} : A.entry i j = true → Through A reflexive k i j
  | stay {i : Fin n} : reflexive = true → Through A reflexive k i i
  | stop {i m j : Fin n} : Through A reflexive k i m → m.val < k → Through A reflexive k m j →
      Through A reflexive k i j

theorem Through.mono {k k' : Nat} (h : Through A reflexive k i j) (hle : k ≤ k') :
    Through A reflexive k' i j := by
  induction h with
  | edge hedge => exact .edge hedge
  | stay hrefl => exact .stay hrefl
  | stop _ hm _ ihl ihr => exact .stop ihl (Nat.lt_of_lt_of_le hm hle) ihr

theorem through_zero_iff :
    Through A reflexive 0 i j ↔ A.entry i j = true ∨ (reflexive = true ∧ i = j) := by
  constructor
  · intro h
    cases h with
    | edge hedge => exact .inl hedge
    | stay hrefl => exact .inr ⟨hrefl, rfl⟩
    | stop _ hm _ => exact absurd hm (Nat.not_lt_zero _)
  · rintro (hedge | ⟨hrefl, rfl⟩)
    · exact .edge hedge
    · exact .stay hrefl

/-- A way through stops up to `k` needs `k` at most once: the part between the first and the last
time it stops there can be left out. This is what one step of the loop relies on. -/
theorem through_succ_iff (k : Fin n) :
    Through A reflexive (k.val + 1) i j ↔
      Through A reflexive k i j ∨ (Through A reflexive k i k ∧ Through A reflexive k k j) := by
  constructor
  · intro h
    induction h with
    | edge hedge => exact .inl (.edge hedge)
    | stay hrefl => exact .inl (.stay hrefl)
    | @stop i m j _ hm _ ihl ihr =>
      rcases Nat.lt_succ_iff_lt_or_eq.mp hm with hlt | heq
      · -- the stop `m` was allowed before `k`: each half may or may not need `k`.
        rcases ihl with hl | ⟨hik, hkm⟩
        · rcases ihr with hr | ⟨hmk, hkj⟩
          · exact .inl (.stop hl hlt hr)
          · exact .inr ⟨.stop hl hlt hmk, hkj⟩
        · rcases ihr with hr | ⟨_, hkj⟩
          · exact .inr ⟨hik, .stop hkm hlt hr⟩
          · exact .inr ⟨hik, hkj⟩
      · -- the stop is `k` itself: the first half up to it and the second half from it do without.
        obtain rfl : m = k := Fin.ext heq
        have hik : Through A reflexive m i m := ihl.elim id And.left
        have hkj : Through A reflexive m m j := ihr.elim id And.right
        exact .inr ⟨hik, hkj⟩
  · rintro (h | ⟨hik, hkj⟩)
    · exact h.mono (Nat.le_succ _)
    · exact .stop (hik.mono (Nat.le_succ _)) (Nat.lt_succ_self _) (hkj.mono (Nat.le_succ _))

/-! ## The loop -/

/-- What holds after the first steps of a loop, if each step carries it on. The property may speak
of the number of the step. -/
theorem foldl_preserves {β : Type} {f : β → Fin n → β} (P : Nat → β → Prop) {init : β}
    (start : P 0 init) (step : ∀ (k : Fin n) (b : β), P k b → P (k + 1) (f b k)) :
    P n (Fin.foldl n f init) := by
  induction n with
  | zero => exact start
  | succ n ih =>
    -- the loop without its last step runs over one index less.
    rw [Fin.foldl_succ_last]
    have hfirst : P n (Fin.foldl n (fun b k => f b k.castSucc) init) :=
      ih fun k b hb => step k.castSucc b hb
    exact step (Fin.last n) _ hfirst

/-- The sets hold what is reached through stops below `k`. -/
def Allows (A : Matrix Bool n n) (reflexive : Bool) (k : Nat) (reach : Vector StateSet n) : Prop :=
  ∀ i j : Fin n, (reach.get i).contains j = true ↔ Through A reflexive k i j

theorem allows_successors : Allows A reflexive 0 (successors A reflexive) := by
  intro i j
  rw [through_zero_iff]
  have hedges := contains_successors A i j
  cases reflexive with
  | false => simp [hedges]
  | true =>
    -- the reflexive rows are the rows without loops, each with its own vertex put in.
    have hrow : (successors A true).get i = ((successors A false).get i).insert i := by
      simp [successors]
    rw [hrow, StateSet.contains_insert, hedges]
    simp [Fin.ext_iff]

theorem allows_allowStop {reach : Vector StateSet n} (k : Fin n)
    (h : Allows A reflexive k reach) : Allows A reflexive (k + 1) (allowStop reach k) := by
  intro i j
  have hij := h i j
  have hik := h i k
  have hkj := h k j
  rw [through_succ_iff, ← hij, ← hik, ← hkj, allowStop, get_map]
  -- a row that holds `k` takes in the row of `k`, as it was before this step.
  by_cases hstop : (reach.get i).contains k = true
  · rw [if_pos hstop, StateSet.contains_union]
    simp [hstop]
  · rw [if_neg hstop]
    simp [hstop]

theorem transitiveClosure_iff_through :
    (transitiveClosure A reflexive).entry i j = true ↔ Through A reflexive n i j := by
  have hend : Allows A reflexive n (Fin.foldl n allowStop (successors A reflexive)) :=
    foldl_preserves (Allows A reflexive) allows_successors fun k _ => allows_allowStop k
  rw [transitiveClosure, Matrix.entry_ofFn]
  exact hend i j

/-! ## Ways are walks -/

/-- A walk of at least one edge, or no edge at all where that is allowed. -/
def WalkOrStay (A : Matrix Bool n n) (reflexive : Bool) (i j : Fin n) : Prop :=
  (∃ len, Walk A (len + 1) i j) ∨ (reflexive = true ∧ i = j)

theorem WalkOrStay.trans (first : WalkOrStay A reflexive i m)
    (second : WalkOrStay A reflexive m j) : WalkOrStay A reflexive i j := by
  rcases first with ⟨len, first⟩ | ⟨hrefl, rfl⟩
  · rcases second with ⟨len', second⟩ | ⟨_, rfl⟩
    · exact .inl ⟨len' + 1 + len, first.append second⟩
    · exact .inl ⟨len, first⟩
  · exact second

theorem Through.walkOrStay {k : Nat} (h : Through A reflexive k i j) :
    WalkOrStay A reflexive i j := by
  induction h with
  | edge hedge => exact .inl ⟨0, .cons hedge (.nil _)⟩
  | stay hrefl => exact .inr ⟨hrefl, rfl⟩
  | stop _ _ _ ihl ihr => exact ihl.trans ihr

theorem Walk.through {len : Nat} (walk : Walk A (len + 1) i j) : Through A reflexive n i j := by
  induction len generalizing i with
  | zero =>
    obtain ⟨m, hedge, hrest⟩ := Walk.succ_iff.mp walk
    rw [Walk.zero_iff] at hrest
    exact .edge (hrest ▸ hedge)
  | succ len ih =>
    obtain ⟨m, hedge, hrest⟩ := Walk.succ_iff.mp walk
    -- the first edge ends at a vertex below `n`, which is an allowed stop.
    exact .stop (.edge hedge) m.isLt (ih hrest)

/-- **The closure is reachability.** It relates two vertices if and only if there is a walk of at
least one edge between them or, in the reflexive closure, they are equal. -/
theorem transitiveClosure_iff_walk :
    (transitiveClosure A reflexive).entry i j = true ↔
      (∃ len, Walk A (len + 1) i j) ∨ (reflexive = true ∧ i = j) := by
  rw [transitiveClosure_iff_through]
  constructor
  · exact Through.walkOrStay
  · rintro (⟨_, walk⟩ | ⟨hrefl, rfl⟩)
    · exact walk.through
    · exact .stay hrefl

/-- The reflexive closure relates the vertices with a walk of any length between them. The walk
without edges is the one that the plain closure leaves out. -/
theorem reflexiveClosure_iff_walk :
    (transitiveClosure A true).entry i j = true ↔ ∃ len, Walk A len i j := by
  rw [transitiveClosure_iff_walk]
  constructor
  · rintro (⟨len, walk⟩ | ⟨_, rfl⟩)
    · exact ⟨len + 1, walk⟩
    · exact ⟨0, .nil i⟩
  · rintro ⟨len, walk⟩
    cases len with
    | zero => exact .inr ⟨rfl, Walk.zero_iff.mp walk⟩
    | succ len => exact .inl ⟨len, walk⟩

end PathSum.Graph
