import Mathlib.Data.Fintype.Pigeonhole
import PathSum.Graph.Walks
import PathSum.Proofs.Graph.Reachability
import PathSum.Proofs.Matrix.Boolean

/-!
# Short walks are enough

A bounded star asks for walks of a bounded length, the closure for walks of any length. The two are
the same as soon as the bound lets a walk visit every vertex once, because a longer walk comes back
to a vertex that it has left, and what it did in between can be left out.

* `Walk.exists_short`: a walk can be cut down to fewer edges than there are vertices.
* `Rounds.next`, `boundedStar_boolean_iff`: one round of the star allows one edge more, so the star
  of a bound has the walks of at most so many edges.
* `boundedStar_eq_transitiveClosure`: both algorithms give the same matrix.
-/

namespace PathSum.Graph

variable {n len bound : Nat} {A : Matrix Bool n n} {i j k : Fin n}

/-! ## Cutting walks -/

/-- A walk can be stopped on the way. -/
theorem Walk.split {before after : Nat} (walk : Walk A (after + before) i k) :
    ∃ j, Walk A before i j ∧ Walk A after j k := by
  induction before generalizing i with
  | zero => exact ⟨i, .nil i, walk⟩
  | succ before ih =>
    obtain ⟨m, hedge, hrest⟩ := Walk.succ_iff.mp walk
    obtain ⟨j, hbefore, hafter⟩ := ih hrest
    exact ⟨j, .cons hedge hbefore, hafter⟩

theorem Walk.succ_last_iff : Walk A (len + 1) i k ↔ ∃ j, Walk A len i j ∧ A.entry j k = true := by
  constructor
  · intro walk
    rw [Nat.add_comm] at walk
    obtain ⟨j, hbefore, hlast⟩ := walk.split
    obtain ⟨m, hedge, hnil⟩ := Walk.succ_iff.mp hlast
    exact ⟨j, hbefore, Walk.zero_iff.mp hnil ▸ hedge⟩
  · rintro ⟨j, hbefore, hedge⟩
    rw [Nat.add_comm]
    exact hbefore.append (.cons hedge (.nil k))

/-- **Loops can be left out.** A walk with at least as many edges as there are vertices meets a
vertex twice, and what lies between the two visits can be cut out of it. -/
theorem Walk.exists_short (walk : Walk A len i k) : ∃ short < n, Walk A short i k := by
  induction len using Nat.strongRecOn with
  | ind len ih =>
    by_cases hshort : len < n
    · exact ⟨len, hshort, walk⟩
    · have hstop (t : Fin (len + 1)) : ∃ j, Walk A t i j ∧ Walk A (len - t) j k := by
        rw [← Nat.sub_add_cancel (Nat.le_of_lt_succ t.isLt)] at walk
        exact walk.split
      choose stop before after using hstop
      -- there are more times to stop at than vertices to stop in.
      have hcard : Fintype.card (Fin n) < Fintype.card (Fin (len + 1)) := by
        simp only [Fintype.card_fin]
        omega
      obtain ⟨s, t, hne, heq⟩ := Fintype.exists_ne_map_eq_of_card_lt stop hcard
      wlog hlt : s < t generalizing s t
      · exact this t s hne.symm heq.symm (lt_of_le_of_ne (not_lt.mp hlt) hne.symm)
      have hcut : Walk A (len - t + s) i k := (before s).append (heq ▸ after t)
      exact ih (len - t + s) (by omega) hcut

/-! ## Rounds of the star -/

/-- What the star has after `bound` rounds: the walks of at most `bound` edges in its total, and
those of exactly `bound` edges in its power. -/
structure Rounds (A : Matrix Bool n n) (bound : Nat) (total power : Matrix Bool n n) : Prop where
  total_iff : ∀ i k, total.entry i k = true ↔ ∃ len ≤ bound, Walk A len i k
  power_iff : ∀ i k, power.entry i k = true ↔ Walk A bound i k

theorem rounds_zero :
    Rounds A 0 (.identity .boolean n) (.identity .boolean n) := by
  have hnil (i k : Fin n) : (Matrix.identity .boolean n).entry i k = true ↔ Walk A 0 i k := by
    rw [Matrix.entry_identity, Walk.zero_iff]
    by_cases h : i = k <;> simp [h, Weights.boolean]
  refine ⟨fun i k => ?_, hnil⟩
  rw [hnil]
  simp

variable {total power : Matrix Bool n n}

theorem Rounds.next (h : Rounds A bound total power) :
    Rounds A (bound + 1) (total.add .boolean (power.mul .boolean A)) (power.mul .boolean A) := by
  have hpower (i k : Fin n) :
      (power.mul .boolean A).entry i k = true ↔ Walk A (bound + 1) i k := by
    rw [Matrix.entry_mul_boolean_iff, Walk.succ_last_iff]
    simp only [h.power_iff]
  refine ⟨fun i k => ?_, hpower⟩
  rw [Matrix.entry_add, boolean_add_iff, h.total_iff, hpower]
  constructor
  · rintro (⟨len, hle, walk⟩ | walk)
    · exact ⟨len, Nat.le_succ_of_le hle, walk⟩
    · exact ⟨bound + 1, Nat.le_refl _, walk⟩
  · rintro ⟨len, hle, walk⟩
    rcases Nat.le_succ_iff.mp hle with hle | rfl
    · exact .inl ⟨len, hle, walk⟩
    · exact .inr walk

theorem Rounds.addPowers_iff (h : Rounds A bound total power) (steps : Nat) :
    (Matrix.addPowers .boolean A steps total power).entry i k = true ↔
      ∃ len ≤ bound + steps, Walk A len i k := by
  induction steps generalizing total power bound with
  | zero => exact h.total_iff i k
  | succ steps ih => rw [Matrix.addPowers, ih h.next, Nat.add_assoc, Nat.add_comm 1]

theorem boundedStar_boolean_iff :
    (A.boundedStar .boolean bound).entry i k = true ↔ ∃ len ≤ bound, Walk A len i k := by
  rw [Matrix.boundedStar, rounds_zero.addPowers_iff, Nat.zero_add]

/-! ## Star and closure -/

/-- Once the bound lets a walk visit every vertex, the star has all walks. A longer walk visits some
vertex twice and can be cut short there. -/
theorem boundedStar_eq_transitiveClosure (hbound : n ≤ bound + 1) :
    A.boundedStar .boolean bound = transitiveClosure A true := by
  apply Matrix.ext_entry
  intro i k
  rw [Bool.eq_iff_iff, boundedStar_boolean_iff, reflexiveClosure_iff_walk]
  constructor
  · rintro ⟨len, -, walk⟩
    exact ⟨len, walk⟩
  · rintro ⟨len, walk⟩
    obtain ⟨short, hlt, hshort⟩ := walk.exists_short
    exact ⟨short, by omega, hshort⟩

/-- **The closure is reachability, and the star agrees with it.** For a square matrix the closure
has the pairs of vertices with a walk of at least one edge, the reflexive closure has the pairs of
equal vertices besides, and the star is the reflexive closure as soon as its bound is the number of
vertices less one. Both refuse a matrix that is not square, with the same error. -/
theorem transitiveClosure_exact :
    (∀ (n : Nat) (A : Matrix Bool n n), ∃ closure reflexive : Matrix Bool n n,
      (AnyMatrix.of A).transitiveClosure false = .ok (.of closure) ∧
      (AnyMatrix.of A).transitiveClosure true = .ok (.of reflexive) ∧
      (∀ i j, closure.entry i j = true ↔ ∃ len, Walk A (len + 1) i j) ∧
      (∀ i j, reflexive.entry i j = true ↔ i = j ∨ ∃ len, Walk A (len + 1) i j) ∧
      ∀ bound, n ≤ bound + 1 →
        (AnyMatrix.of A).boundedStar .boolean bound = .ok (.of reflexive)) ∧
    ∀ A : AnyMatrix Bool, A.rows ≠ A.cols → ∀ (reflexive : Bool) (bound : Nat),
      A.transitiveClosure reflexive = .error (.notSquare A.shape) ∧
      A.boundedStar .boolean bound = .error (.notSquare A.shape) := by
  constructor
  · intro n A
    refine ⟨transitiveClosure A false, transitiveClosure A true, AnyMatrix.transitiveClosure_of ..,
      AnyMatrix.transitiveClosure_of .., fun i j => ?_, fun i j => ?_, fun bound hbound => ?_⟩
    · simp [transitiveClosure_iff_walk]
    · rw [transitiveClosure_iff_walk, or_comm]
      simp
    · rw [AnyMatrix.boundedStar_of, boundedStar_eq_transitiveClosure hbound]
  · intro A hshape reflexive bound
    have hsquare := AnyMatrix.square_eq_error hshape
    constructor
    · rw [AnyMatrix.transitiveClosure, hsquare]
      rfl
    · rw [AnyMatrix.boundedStar, hsquare]
      rfl

/-- A way from vertex `0` through vertex `1` to vertex `2`, which has a loop. -/
def chain : Matrix Bool 3 3 :=
  .ofFn fun i j => (i, j) ∈ [(0, 1), (1, 2), (2, 2)]

theorem transitiveClosure_exact_chain :
    (∃ closure reflexive : Matrix Bool 3 3,
      (AnyMatrix.of chain).transitiveClosure false = .ok (.of closure) ∧
      closure.entry 0 2 = true ∧ closure.entry 0 0 = false ∧
      (AnyMatrix.of chain).transitiveClosure true = .ok (.of reflexive) ∧
      reflexive.entry 0 0 = true ∧
      (AnyMatrix.of chain).boundedStar .boolean 2 = .ok (.of reflexive)) ∧
    (AnyMatrix.of (.filled 1 2 true)).transitiveClosure false = .error (.notSquare ⟨1, 2⟩) := by
  obtain ⟨hsquare, hother⟩ := transitiveClosure_exact
  constructor
  · obtain ⟨closure, reflexive, hclosure, hreflexive, hwalk, hstay, hstar⟩ := hsquare 3 chain
    have hedge (i j : Fin 3) (h : chain.entry i j = true) : Walk chain 1 i j := .cons h (.nil j)
    refine ⟨closure, reflexive, hclosure, ?_, ?_, hreflexive, ?_, hstar 2 (by decide)⟩
    · exact (hwalk 0 2).mpr ⟨1, (hedge 0 1 (by decide)).append (hedge 1 2 (by decide))⟩
    · rw [Bool.eq_false_iff, Ne, hwalk]
      rintro ⟨len, walk⟩
      obtain ⟨j, -, hlast⟩ := Walk.succ_last_iff.mp walk
      exact absurd hlast (by decide +revert)
    · exact (hstay 0 0).mpr (.inl rfl)
  · exact (hother (.of (.filled 1 2 true)) (by decide) false 0).1

end PathSum.Graph
