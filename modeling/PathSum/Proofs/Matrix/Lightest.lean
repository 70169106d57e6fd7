import PathSum.Proofs.Matrix.StarSums

/-!
# Lightest paths

Where a sum is always one of its terms, a sum over paths is the weight of one of them. Which one it
is, is said by an order on the weights that products keep (`PathOrder`), and by adding, which takes
the lesser (`Selects`). No law of sums is needed for that, so weights that round have lightest paths
like any other.

* `Selects.sumOver_le`, `Selects.sumOver_eq`: a sum is one of its terms, and it is the least.
* `lightest_stepPower`: an entry of a power is a lightest path, by the last step of the path.
* `lightest_boundedStar`: so is an entry of the star.
* `PathLaws.selects`: lawful weights do, where every sum is one of its two operands.
-/

namespace PathSum

universe u

variable {α : Type u} {w : Weights α} {le : α → α → Prop} {n : Nat}

/-! ## Orders on weights -/

/-- An order that does not change when two paths are continued by the same step. -/
structure Weights.PathOrder (w : Weights α) (le : α → α → Prop) : Prop where
  trans : ∀ {a b c}, le a b → le b c → le a c
  mul_le_mul : ∀ {a b} c, le a b → le (w.mul a c) (w.mul b c)

/-- The lesser of two alternatives is what they add up to, in the order `le`. Continuing two paths
by the same step keeps that order. -/
structure Weights.Selects (w : Weights α) (le : α → α → Prop) : Prop extends w.PathOrder le where
  add_eq : ∀ a b, w.add a b = a ∨ w.add a b = b
  add_le_left : ∀ a b, le (w.add a b) a
  add_le_right : ∀ a b, le (w.add a b) b
  zero_mul : ∀ a, w.mul w.zero a = w.zero

namespace Weights

theorem PathOrder.alongStops_le {A : Matrix α n n} (order : w.PathOrder le) {x y : α}
    (h : le x y) (i : Fin n) (stops : List (Fin n)) :
    le (w.alongStops A x i stops) (w.alongStops A y i stops) := by
  induction stops generalizing x y i with
  | nil => exact h
  | cons k stops ih => exact ih (order.mul_le_mul (A.entry i k) h) k

theorem Selects.le_refl (sel : w.Selects le) (a : α) : le a a := by
  have h := sel.add_le_left a a
  rwa [(sel.add_eq a a).elim id id] at h

/-- A sum is not above any of its terms. Each addition takes the lesser of what was there and the
next term. -/
theorem Selects.sumOver_le (sel : w.Selects le) (f : Fin n → α) (i : Fin n) :
    le (w.sumOver n f) (f i) := by
  induction n with
  | zero => exact i.elim0
  | succ n ih =>
    rw [sumOver_succ]
    cases i using Fin.lastCases with
    | last => exact sel.add_le_right ..
    | cast i => exact sel.trans (sel.add_le_left ..) (ih (fun i => f i.castSucc) i)

/-- A sum that is not `zero` is one of its terms. Nothing is added up here; a sum only chooses. -/
theorem Selects.sumOver_eq (sel : w.Selects le) (f : Fin n → α) :
    w.sumOver n f = w.zero ∨ ∃ i, w.sumOver n f = f i := by
  induction n with
  | zero => exact .inl rfl
  | succ n ih =>
    rw [sumOver_succ]
    rcases sel.add_eq (w.sumOver n fun i => f i.castSucc) (f (Fin.last n)) with hfirst | hlast
    · rw [hfirst]
      exact (ih fun i => f i.castSucc).imp_right fun ⟨i, hi⟩ => ⟨i.castSucc, hi⟩
    · exact .inr ⟨Fin.last n, hlast⟩

/-! ## Lightest paths -/

/-- `x` is the weight of one of the paths from `i`, or `zero` if it is none of theirs, and it is not
above any of them. -/
structure Lightest (w : Weights α) (le : α → α → Prop) (A : Matrix α n n) (i : Fin n)
    (paths : List (List (Fin n))) (x : α) : Prop where
  reached : x = w.zero ∨ ∃ stops ∈ paths, w.pathWeight A i stops = x
  least : ∀ stops ∈ paths, le x (w.pathWeight A i stops)

theorem Lightest.add {A : Matrix α n n} {i : Fin n} {paths paths' : List (List (Fin n))} {x y : α}
    (sel : w.Selects le) (hx : w.Lightest le A i paths x) (hy : w.Lightest le A i paths' y) :
    w.Lightest le A i (paths ++ paths') (w.add x y) where
  reached := by
    rcases sel.add_eq x y with h | h
    · rw [h]
      exact hx.reached.imp_right fun ⟨stops, hmem, hweight⟩ =>
        ⟨stops, List.mem_append_left _ hmem, hweight⟩
    · rw [h]
      exact hy.reached.imp_right fun ⟨stops, hmem, hweight⟩ =>
        ⟨stops, List.mem_append_right _ hmem, hweight⟩
  least stops hstops := by
    rcases List.mem_append.mp hstops with hmem | hmem
    · exact sel.trans (sel.add_le_left x y) (hx.least stops hmem)
    · exact sel.trans (sel.add_le_right x y) (hy.least stops hmem)

/-- The last step of a path. -/
theorem pathWeight_concat (A : Matrix α n n) {len : Nat} {i j k : Fin n} {stops : List (Fin n)}
    (hstops : stops ∈ pathsTo n len i k) :
    w.pathWeight A i (stops ++ [j]) = w.mul (w.pathWeight A i stops) (A.entry k j) := by
  rw [pathWeight, alongStops_append, (mem_pathsTo.mp hstops).2]
  rfl

end Weights

namespace Matrix

variable {A : Matrix α n n}

/-- An entry of a power is a lightest path of one length. It is the weight of some such path, unless
there is none that weighs anything, and no other is below it. -/
theorem lightest_stepPower (sel : w.Selects le) (len : Nat) (i j : Fin n) :
    w.Lightest le A i (pathsTo n len i j) ((stepPower w A len).entry i j) := by
  induction len generalizing j with
  | zero =>
    rw [stepPower, entry_identity]
    -- the only path of no steps stays at `i`.
    have hstay {stops : List (Fin n)} (h : stops ∈ pathsTo n 0 i j) : stops = [] ∧ i = j := by
      obtain ⟨hlength, hlast⟩ := mem_pathsTo.mp h
      obtain rfl := List.length_eq_zero_iff.mp hlength
      exact ⟨rfl, hlast⟩
    constructor
    · by_cases h : i = j
      · exact .inr ⟨[], mem_pathsTo.mpr ⟨rfl, h⟩, (if_pos h).symm⟩
      · exact .inl (if_neg h)
    · intro stops hstops
      obtain ⟨rfl, rfl⟩ := hstay hstops
      rw [if_pos rfl]
      exact sel.le_refl w.one
  | succ len ih =>
    rw [stepPower, entry_mul]
    constructor
    · refine (sel.sumOver_eq _).elim .inl ?_
      rintro ⟨k, hk⟩
      rw [hk]
      rcases (ih k).reached with hzero | ⟨rest, hrest, hweight⟩
      · rw [hzero, sel.zero_mul]
        exact .inl rfl
      · rw [← hweight, ← Weights.pathWeight_concat A hrest]
        exact .inr ⟨_, mem_pathsTo_succ.mpr ⟨k, rest, hrest, rfl⟩, rfl⟩
    · intro stops hstops
      obtain ⟨k, rest, hrest, rfl⟩ := mem_pathsTo_succ.mp hstops
      rw [Weights.pathWeight_concat A hrest]
      exact sel.trans (sel.sumOver_le _ k) (sel.mul_le_mul _ ((ih k).least rest hrest))

/-- **An entry of the star is a lightest path** of at most as many steps as the star allows. The
star chooses among the powers as each power does among its paths. -/
theorem lightest_boundedStar (sel : w.Selects le) (len : Nat) (i j : Fin n) :
    w.Lightest le A i (pathsWithin n len i j) ((A.boundedStar w len).entry i j) := by
  induction len with
  | zero =>
    rw [pathsWithin_zero]
    exact lightest_stepPower sel 0 i j
  | succ len ih =>
    rw [boundedStar_succ, entry_add, pathsWithin_succ]
    exact ih.add sel (lightest_stepPower sel (len + 1) i j)

end Matrix

/-! ## Lawful weights -/

namespace Weights

/-- The order of a sum that absorbs its second operand. -/
def Absorbs (w : Weights α) (a b : α) : Prop :=
  w.add a b = a

theorem PathLaws.pathOrder (laws : w.PathLaws) : w.PathOrder w.Absorbs where
  trans {a b c} hab hbc := by
    unfold Absorbs at *
    rw [← hab, laws.add_assoc, hbc]
  mul_le_mul c h := by
    unfold Absorbs at *
    rw [← laws.add_mul, h]

theorem PathLaws.selects (laws : w.PathLaws) (choice : ∀ a b, w.add a b = a ∨ w.add a b = b) :
    w.Selects w.Absorbs where
  toPathOrder := laws.pathOrder
  add_eq := choice
  add_le_left a b := by
    have hself : w.add a a = a := (choice a a).elim id id
    rw [Absorbs, laws.add_comm, ← laws.add_assoc, hself]
  add_le_right a b := by
    have hself : w.add b b = b := (choice b b).elim id id
    rw [Absorbs, laws.add_assoc, hself]
  zero_mul := laws.zero_mul

end Weights

end PathSum
