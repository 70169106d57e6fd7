import PathSum.Proofs.Floating.Lengths
import PathSum.Proofs.Graph.ShortWalks

/-!
# Walks of bounded length

What the star means for graphs. It sums over the walks of at most so many edges, each of them once;
with Boolean weights it says whether there is one, and with lengths how long the shortest is. If no
edge makes a walk count for more, a walk need not visit a vertex twice, and all larger stars are the
same.

* `boundedStar_exact`: sums over walks, reachability and shortest walks.
* `boundedStar_stable`: one edge less than there are vertices is enough.
-/

namespace PathSum.Graph

universe u

/-- **The star sums over the walks up to its bound, each of them once.** Where sums can be taken in
any order and go through products from the right, an entry of the star is the sum of the weights of
all walks between two vertices. If moreover every sum is one of its two operands, it is the weight
of a lightest walk. Reachability asks for one of these walks; and the shortest length is that of a
walk, however the lengths are rounded, and no walk is shorter. -/
theorem boundedStar_exact :
    (∀ (n len : Nat) (i j : Fin n), (pathsWithin n len i j).Nodup ∧
      ∀ stops, stops ∈ pathsWithin n len i j ↔ stops.length ≤ len ∧ stops.getLastD i = j) ∧
    (∀ (α : Type u) (w : Weights α), w.PathLaws → ∀ (n : Nat) (A : Matrix α n n) (len : Nat),
      ∃ S : Matrix α n n, (AnyMatrix.of A).boundedStar w len = .ok (.of S) ∧
        (∀ i j, S.entry i j = A.pathSumWithin w len i j) ∧
        ((∀ a b, w.add a b = a ∨ w.add a b = b) → ∀ i j,
          w.Lightest w.Absorbs A i (pathsWithin n len i j) (S.entry i j))) ∧
    (∀ (n : Nat) (A : Matrix Bool n n) (len : Nat), ∃ R : Matrix Bool n n,
      (AnyMatrix.of A).reachableWithin len = .ok (.of R) ∧
        ∀ i j, R.entry i j = true ↔ ∃ steps ≤ len, Walk A steps i j) ∧
    ∀ (n : Nat) (A : Matrix Float n n) (len : Nat), ∃ D : Matrix Float n n,
      (AnyMatrix.of A).shortestWithin len = .ok (.of D) ∧ ∀ i j,
        (D.entry i j).isNaN = false ∧
        (D.entry i j = infinity ∨
          ∃ stops ∈ pathsWithin n len i j, Weights.minPlus.pathWeight A i stops = D.entry i j) ∧
        ∀ stops ∈ pathsWithin n len i j, ¬Weights.minPlus.pathWeight A i stops < D.entry i j := by
  refine ⟨fun n len i j => ⟨nodup_pathsWithin n len i j, fun stops => mem_pathsWithin⟩, ?_, ?_, ?_⟩
  · intro α w laws n A len
    exact ⟨_, AnyMatrix.boundedStar_of w A len, Matrix.entry_boundedStar laws len, fun choice =>
      Matrix.lightest_boundedStar (laws.selects choice) len⟩
  · intro n A len
    exact ⟨_, AnyMatrix.reachableWithin_of A len, fun i j => boundedStar_boolean_iff⟩
  · intro n A len
    exact ⟨_, AnyMatrix.shortestWithin_of A len, Floating.shortest_boundedStar len⟩

/-- Lengths that are not rounded, where there are any. They obey all the laws that are asked for,
which rounded lengths do not. -/
def exactLengths : Weights (Option Nat) where
  zero := none
  one := some 0
  add
    | none, b => b
    | some a, none => some a
    | some a, some b => some (min a b)
  mul
    | some a, some b => some (a + b)
    | _, _ => none
  same := (· == ·)

theorem pathLaws_exactLengths : exactLengths.PathLaws where
  add_assoc a b c := by
    cases a <;> cases b <;> cases c <;> simp [exactLengths, Nat.min_assoc]
  add_comm a b := by
    cases a <;> cases b <;> simp [exactLengths, Nat.min_comm]
  zero_add _ := rfl
  add_mul a b c := by
    cases a <;> cases b <;> cases c <;> simp [exactLengths, Nat.add_min_add_right]
  zero_mul _ := rfl

theorem exactLengths_add_eq (a b : Option Nat) :
    exactLengths.add a b = a ∨ exactLengths.add a b = b := by
  cases a with
  | none => exact .inr rfl
  | some a =>
    cases b with
    | none => exact .inl rfl
    | some b => exact (min_choice a b).imp (congrArg some) (congrArg some)

/-- An edge from vertex `0` to vertex `1`, and a shorter way through vertex `2`. -/
def detour : Matrix (Option Nat) 3 3 :=
  .ofFn fun i j =>
    if i.val = 0 ∧ j.val = 1 then some 4
    else if i.val = 0 ∧ j.val = 2 then some 1
    else if i.val = 2 ∧ j.val = 1 then some 2
    else none

theorem boundedStar_exact_detour : ∃ S : Matrix (Option Nat) 3 3,
    (AnyMatrix.of detour).boundedStar exactLengths 2 = .ok (.of S) ∧ S.entry 0 1 = some 3 ∧
      exactLengths.Lightest exactLengths.Absorbs detour 0 (pathsWithin 3 2 0 1) (some 3) := by
  obtain ⟨-, hlawful, -⟩ := boundedStar_exact
  obtain ⟨S, hS, hsum, hlightest⟩ := hlawful _ exactLengths pathLaws_exactLengths 3 detour 2
  have hentry : S.entry 0 1 = some 3 := (hsum 0 1).trans (by decide)
  exact ⟨S, hS, hentry, hentry ▸ hlightest exactLengths_add_eq 0 1⟩

/-- **Walks that visit no vertex twice are enough.** If a weight absorbs what comes of it along any
edge, all stars are equal whose bound lets a walk visit every vertex. That is so for reachability,
and for shortest walks where no edge has a negative length, although these lengths are rounded. -/
theorem boundedStar_stable :
    (∀ (α : Type u) (w : Weights α), w.PathLaws → ∀ (n : Nat) (A : Matrix α n n),
      (∀ x i j, w.add x (w.mul x (A.entry i j)) = x) → ∃ S : Matrix α n n,
        ∀ len, n ≤ len + 1 → (AnyMatrix.of A).boundedStar w len = .ok (.of S)) ∧
    (∀ (n : Nat) (A : Matrix Bool n n), ∃ R : Matrix Bool n n,
      ∀ len, n ≤ len + 1 → (AnyMatrix.of A).reachableWithin len = .ok (.of R)) ∧
    ∀ (n : Nat) (A : Matrix Float n n), (∀ i j, 0 ≤ A.entry i j) → ∃ D : Matrix Float n n,
      ∀ len, n ≤ len + 1 → (AnyMatrix.of A).shortestWithin len = .ok (.of D) := by
  refine ⟨?_, ?_, ?_⟩
  · intro α w laws n A absorbs
    -- the shortest bound that is long enough serves for all others.
    refine ⟨A.boundedStar w (n - 1), fun len hlen => ?_⟩
    rw [AnyMatrix.boundedStar_of, Matrix.boundedStar_eq_of_absorbs laws absorbs hlen]
  · intro n A
    have absorbs (x : Bool) (i j : Fin n) :
        Weights.boolean.add x (Weights.boolean.mul x (A.entry i j)) = x := by
      cases x <;> rfl
    refine ⟨reachableWithin A (n - 1), fun len hlen => ?_⟩
    rw [AnyMatrix.reachableWithin_of, reachableWithin,
      Matrix.boundedStar_eq_of_absorbs Weights.boolean_laws.toPathLaws absorbs hlen]
    rfl
  · intro n A nonneg
    refine ⟨shortestWithin A (n - 1), fun len hlen => ?_⟩
    rw [AnyMatrix.shortestWithin_of, shortestWithin, Floating.boundedStar_minPlus_eq nonneg hlen]
    rfl

theorem exactLengths_absorbs (a b : Option Nat) :
    exactLengths.add a (exactLengths.mul a b) = a := by
  cases a <;> cases b <;> simp [exactLengths]

theorem boundedStar_stable_detour :
    (∃ S : Matrix (Option Nat) 3 3,
      (AnyMatrix.of detour).boundedStar exactLengths 2 = .ok (.of S) ∧
      (AnyMatrix.of detour).boundedStar exactLengths 7 = .ok (.of S)) ∧
    ∃ D : Matrix Float 2 2,
      (AnyMatrix.of (.filled 2 2 1.5)).shortestWithin 1 = .ok (.of D) ∧
      (AnyMatrix.of (.filled 2 2 1.5)).shortestWithin 9 = .ok (.of D) := by
  obtain ⟨hlawful, -, hfloat⟩ := boundedStar_stable
  constructor
  · obtain ⟨S, hS⟩ := hlawful _ exactLengths pathLaws_exactLengths 3 detour fun x i j =>
      exactLengths_absorbs x (detour.entry i j)
    exact ⟨S, hS 2 (by decide), hS 7 (by decide)⟩
  · obtain ⟨D, hD⟩ := hfloat 2 (.filled 2 2 1.5) fun i j => by
      rw [Matrix.entry_filled]
      decide
    exact ⟨D, hD 1 (by decide), hD 9 (by decide)⟩

end PathSum.Graph
