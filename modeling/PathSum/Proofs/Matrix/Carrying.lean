import PathSum.Matrix.Paths
import PathSum.Proofs.Weights.Sums

/-!
# Carrying weights along all paths at once

A vector keeps one weight for each index, and a step carries all of them on, from every index to
every index. A rule (`CarryRule`) says how one weight is carried along one step, and what a weight
counts for in the end. All that it has to obey is that carrying goes through sums (`Additive`);
then the steps of the vector sum over all paths.

* `additive_onward`: carrying along all paths from an index goes through sums, like each step.
* `total_foldl_step`, `total_foldl_step_eq_sum_routes`: taking the steps one after the other and
  summing up in the end is the sum over all paths.
-/

namespace PathSum

universe u v

variable {α : Type u} {β : Type v} {w : Weights α} {m n : Nat}

/-! ## Operations that go through sums -/

/-- An operation on weights that goes through sums. -/
structure Weights.Additive (w : Weights α) (f : α → α) : Prop where
  map_zero : f w.zero = w.zero
  map_add : ∀ a b, f (w.add a b) = w.add (f a) (f b)

namespace Weights

theorem Additive.map_sumOver {f : α → α} (hf : w.Additive f) (g : Fin n → α) :
    f (w.sumOver n g) = w.sumOver n fun i => f (g i) := by
  induction n with
  | zero => exact hf.map_zero
  | succ n ih => rw [sumOver_succ, hf.map_add, ih, sumOver_succ]

theorem Additive.comp {f g : α → α} (hf : w.Additive f) (hg : w.Additive g) :
    w.Additive fun x => f (g x) where
  map_zero := by rw [hg.map_zero, hf.map_zero]
  map_add a b := by rw [hg.map_add, hf.map_add]

theorem PathLaws.additive_mul_right (laws : w.PathLaws) (c : α) : w.Additive (w.mul · c) where
  map_zero := laws.zero_mul c
  map_add a b := laws.add_mul a b c

theorem SemiringLaws.additive_mul_left (laws : w.SemiringLaws) (c : α) : w.Additive (w.mul c) where
  map_zero := laws.mul_zero c
  map_add a b := laws.mul_add c a b

theorem PathLaws.additive_sumOver (laws : w.PathLaws) {f : Fin n → α → α}
    (hf : ∀ i, w.Additive (f i)) : w.Additive fun x => w.sumOver n fun i => f i x where
  map_zero := by
    simp only [(hf _).map_zero]
    exact laws.sumOver_const_zero
  map_add a b := by
    simp only [(hf _).map_add]
    exact laws.sumOver_add ..

end Weights

/-! ## Carrying rules -/

/-- How weights are carried from index to index, with a label for each step, and what they count
for at the index where they end. -/
structure CarryRule (w : Weights α) (n : Nat) (β : Type v) where
  carry : β → Fin n → Fin n → α → α
  finish : Fin n → α → α
  additive_carry : ∀ b i j, w.Additive (carry b i j)
  additive_finish : ∀ i, w.Additive (finish i)

namespace CarryRule

/-- Carries the weights of all indices one step on. -/
def step (R : CarryRule w n β) (v : Vector α n) (b : β) : Vector α n :=
  Vector.ofFn fun j => w.sumOver n fun i => R.carry b i j (v.get i)

/-- What the weights of all indices count for together. -/
def total (R : CarryRule w n β) (v : Vector α n) : α :=
  w.sumOver n fun i => R.finish i (v.get i)

/-- What a weight counts for after it has been carried along one path. -/
def along (R : CarryRule w n β) (x : α) (i : Fin n) : List (β × Fin n) → α
  | [] => R.finish i x
  | (b, j) :: rest => R.along (R.carry b i j x) j rest

/-- What a weight counts for after it has been carried along all paths from an index. -/
def onward (R : CarryRule w n β) (steps : List β) (i : Fin n) (x : α) : α :=
  w.sum ((sequences n steps.length).map fun stops => R.along x i (steps.zip stops))

variable {R : CarryRule w n β}

theorem onward_nil (laws : w.PathLaws) (i : Fin n) (x : α) : R.onward [] i x = R.finish i x := by
  show w.add w.zero (R.finish i x) = R.finish i x
  exact laws.zero_add _

/-- The paths from an index fall apart by the index that they go to first. What is carried along
them is added up over those indices. -/
theorem onward_cons (laws : w.PathLaws) (b : β) (steps : List β) (i : Fin n) (x : α) :
    R.onward (b :: steps) i x = w.sumOver n fun j => R.onward steps j (R.carry b i j x) := by
  have hmap (j : Fin n) : ((sequences n steps.length).map (j :: ·)).map
      (fun stops => R.along x i ((b :: steps).zip stops)) =
        (sequences n steps.length).map fun stops =>
          R.along (R.carry b i j x) j (steps.zip stops) := by
    rw [List.map_map]
    rfl
  rw [onward, List.length_cons, sequences, List.map_flatMap, laws.sum_flatMap,
    Weights.sumOver_eq_sum_finRange]
  simp only [hmap]
  rfl

theorem additive_onward (laws : w.PathLaws) (steps : List β) (i : Fin n) :
    w.Additive (R.onward steps i) := by
  induction steps generalizing i with
  | nil =>
    simpa only [funext (onward_nil laws i)] using R.additive_finish i
  | cons b steps ih =>
    rw [funext (onward_cons laws b steps i)]
    exact laws.additive_sumOver fun j => (ih j).comp (R.additive_carry b i j)

/-- Carrying all weights at once is carrying each of them along all paths. The induction is on the
matrices that are gone through, for any weights to begin with. -/
theorem total_foldl_step (laws : w.PathLaws) (steps : List β) (v : Vector α n) :
    R.total (steps.foldl R.step v) = w.sumOver n fun i => R.onward steps i (v.get i) := by
  induction steps generalizing v with
  | nil => simp only [List.foldl_nil, total, onward_nil laws]
  | cons b steps ih =>
    calc R.total (steps.foldl R.step (R.step v b))
        = w.sumOver n fun j => R.onward steps j (w.sumOver n fun i => R.carry b i j (v.get i)) := by
          rw [ih]
          simp only [step, get_ofFn]
      _ = w.sumOver n fun j => w.sumOver n fun i => R.onward steps j (R.carry b i j (v.get i)) := by
          simp only [(additive_onward laws steps _).map_sumOver]
      _ = w.sumOver n fun i => w.sumOver n fun j => R.onward steps j (R.carry b i j (v.get i)) :=
          laws.sumOver_comm _
      _ = w.sumOver n fun i => R.onward (b :: steps) i (v.get i) := by
          simp only [onward_cons laws]

/-- The steps, taken one after the other, sum over all paths. -/
theorem total_foldl_step_eq_sum_routes (laws : w.PathLaws) (steps : List β) (v : Vector α n) :
    R.total (steps.foldl R.step v) = w.sum ((routes n steps.length).map fun (start, stops) =>
      R.along (v.get start) start (steps.zip stops)) := by
  rw [total_foldl_step laws, routes, List.map_flatMap, laws.sum_flatMap,
    Weights.sumOver_eq_sum_finRange]
  simp only [List.map_map]
  rfl

end CarryRule

end PathSum
