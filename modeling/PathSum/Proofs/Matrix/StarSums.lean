import PathSum.Matrix.Power
import PathSum.Proofs.Matrix.Carrying
import PathSum.Proofs.Matrix.SumOrder

/-!
# The bounded star sums over paths

The star keeps the last power and the sum of all powers, and multiplies the power from the right in
each round. So it is built power by power (`boundedStar_succ`), and an entry of a power is the sum
over the paths of one length.

* `row_stepPower`: a row of a power carries the weight `one` from its index along all paths.
* `entry_stepPower`: what arrives at an index is the sum over the paths that lead there.
* `entry_boundedStar`: the star has the paths of every length up to its bound, each length once.
-/

namespace PathSum.Matrix

universe u

variable {α : Type u} {w : Weights α} {n : Nat} {A : Matrix α n n}

/-! ## Power by power -/

/-- The power of a matrix that is reached by multiplying from the right, step by step. -/
def stepPower (w : Weights α) (A : Matrix α n n) : Nat → Matrix α n n
  | 0 => identity w n
  | len + 1 => (stepPower w A len).mul w A

theorem addPowers_succ (steps len : Nat) (total : Matrix α n n) :
    addPowers w A (steps + 1) total (stepPower w A len) =
      (addPowers w A steps total (stepPower w A len)).add w (stepPower w A (len + steps + 1)) := by
  induction steps generalizing len total with
  | zero => rfl
  | succ steps ih =>
    have hnext := ih (len + 1) (total.add w (stepPower w A (len + 1)))
    rw [Nat.add_right_comm len 1 steps] at hnext
    exact hnext

/-- A larger bound adds one more power. -/
theorem boundedStar_succ (w : Weights α) (A : Matrix α n n) (len : Nat) :
    A.boundedStar w (len + 1) = (A.boundedStar w len).add w (stepPower w A (len + 1)) := by
  have hlast := addPowers_succ (w := w) (A := A) len 0 (identity w n)
  rw [Nat.zero_add] at hlast
  exact hlast

/-! ## Powers sum over paths -/

theorem row_stepPower (len : Nat) (i : Fin n) :
    (stepPower w A len).row i =
      (List.replicate len A).foldl (vecMul w) ((identity w n).row i) := by
  induction len with
  | zero => rfl
  | succ len ih =>
    rw [List.replicate_succ', List.foldl_append, ← ih]
    exact row_mul w (stepPower w A len) A i

/-- Weights are multiplied from the left, and only what ends at `j` counts. -/
def arriveRule (laws : w.PathLaws) (j : Fin n) : CarryRule w n (Matrix α n n) where
  carry M i k x := w.mul x (M.entry i k)
  finish i x := if i = j then x else w.zero
  additive_carry M i k := laws.additive_mul_right (M.entry i k)
  additive_finish i := by
    by_cases h : i = j
    · simp only [h, if_true]
      exact ⟨rfl, fun _ _ => rfl⟩
    · simp only [h, if_false]
      exact ⟨rfl, fun _ _ => (laws.zero_add w.zero).symm⟩

variable {laws : w.PathLaws} {i j : Fin n}

theorem step_arriveRule : (arriveRule laws j).step = vecMul w := rfl

theorem total_arriveRule (v : Vector α n) : (arriveRule laws j).total v = v.get j := by
  have hone := laws.sumOver_eq_single (f := fun i => if i = j then v.get i else w.zero) j
    fun i hne => if_neg hne
  rw [if_pos rfl] at hone
  exact hone

theorem along_arriveRule (x : α) (i : Fin n) (stops : List (Fin n)) :
    (arriveRule laws j).along x i (stops.map fun stop => (A, stop)) =
      if stops.getLastD i = j then w.alongStops A x i stops else w.zero := by
  induction stops generalizing x i with
  | nil => rfl
  | cons k stops ih =>
    rw [List.getLastD_cons]
    exact ih (w.mul x (A.entry i k)) k

theorem zip_replicate {len : Nat} {stops : List (Fin n)} (length : stops.length = len) :
    (List.replicate len A).zip stops = stops.map fun stop => (A, stop) :=
  List.ext_getElem (by simp [length]) fun _ _ _ => by simp

/-- A power sums over the paths of one length. The last step of a path is the last factor, and its
end is the column of the entry. -/
theorem entry_stepPower (laws : w.PathLaws) (len : Nat) (i j : Fin n) :
    (stepPower w A len).entry i j = w.sum ((pathsTo n len i j).map (w.pathWeight A i)) := by
  have hcarried : (stepPower w A len).entry i j = w.sumOver n fun k =>
      (arriveRule laws j).onward (List.replicate len A) k (((identity w n).row i).get k) := by
    rw [← CarryRule.total_foldl_step laws, step_arriveRule, ← row_stepPower, total_arriveRule,
      row, get_ofFn]
  -- nothing is carried on from an index other than `i`.
  have hsingle : (stepPower w A len).entry i j =
      (arriveRule laws j).onward (List.replicate len A) i w.one := by
    rw [hcarried, laws.sumOver_eq_single i fun k hne => ?_]
    · simp [row]
    · have hzero : ((identity w n).row i).get k = w.zero := by simp [row, hne.symm]
      rw [hzero, (CarryRule.additive_onward laws _ k).map_zero]
  rw [hsingle, CarryRule.onward, List.length_replicate, pathsTo, laws.sum_filter]
  congr 1
  refine List.map_congr_left fun stops hstops => ?_
  rw [zip_replicate (mem_sequences.mp hstops), along_arriveRule]
  simp only [decide_eq_true_eq]
  rfl

/-- **The star sums over the paths up to its bound.** The powers are added in the order of their
exponents, which is the order of the lengths. -/
theorem entry_boundedStar (laws : w.PathLaws) (len : Nat) (i j : Fin n) :
    (A.boundedStar w len).entry i j = A.pathSumWithin w len i j := by
  induction len with
  | zero =>
    rw [pathSumWithin, pathsWithin_zero]
    exact entry_stepPower laws 0 i j
  | succ len ih =>
    rw [boundedStar_succ, entry_add, ih, entry_stepPower laws, pathSumWithin, pathSumWithin,
      pathsWithin_succ, List.map_append, laws.sum_append]

end PathSum.Matrix
