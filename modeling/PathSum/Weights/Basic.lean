/-!
# Weights

A weight says how much a path counts. Paths are followed step by step with `mul`, and alternative
paths are gathered with `add`; which values the weights are, and what the two operations do to
them, is a parameter of everything else in this library.

No law is asked of the operations here, so rounding and saturating arithmetic are weights like any
other. All sums are taken from the left, starting at `zero`, and this order is part of their
meaning.
-/

namespace PathSum

universe u

/-- The operations that weights are combined with. No law is part of it, so that weights may round,
saturate or wrap; laws are stated apart and asked for where they are needed. -/
structure Weights (α : Type u) where
  /-- The weight of no path at all. -/
  zero : α
  /-- The weight of the path without steps. -/
  one : α
  /-- The joint weight of two alternatives. -/
  add : α → α → α
  /-- The weight of a path that is continued. -/
  mul : α → α → α
  /-- When two weights count as equal. -/
  same : α → α → Bool
  /-- The difference that `same` forgives, where it forgives one. -/
  tolerance : Option Float := none

/-- Weights that can also be taken away. -/
structure RingWeights (α : Type u) extends Weights α where
  /-- The weight that cancels another. -/
  neg : α → α
  /-- The first weight without the second. -/
  sub : α → α → α := fun a b => add a (neg b)

/-- Weights that can also be divided by. -/
structure FieldWeights (α : Type u) extends RingWeights α where
  /-- The reciprocal of a weight. -/
  inv : α → α
  /-- The quotient of two weights is the product with the reciprocal. -/
  div : α → α → α := fun a b => mul a (inv b)

namespace Weights

variable {α : Type u}

/-! ## Sums -/

/-- The sum of a list, from the left. -/
def sum (w : Weights α) (items : List α) : α :=
  items.foldl w.add w.zero

/-- The sum of `f 0`, `f 1`, …, `f (n - 1)`, from the left. -/
@[inline]
def sumOver (w : Weights α) (n : Nat) (f : Fin n → α) : α :=
  Fin.foldl n (fun total i => w.add total (f i)) w.zero

@[simp]
theorem sum_nil (w : Weights α) : w.sum [] = w.zero := rfl

/-- The last item is added last. -/
theorem sum_concat (w : Weights α) (items : List α) (x : α) :
    w.sum (items ++ [x]) = w.add (w.sum items) x := by
  simp [sum]

@[simp]
theorem sumOver_zero (w : Weights α) (f : Fin 0 → α) : w.sumOver 0 f = w.zero := rfl

/-- The term with the largest index is added last. -/
theorem sumOver_succ (w : Weights α) (n : Nat) (f : Fin (n + 1) → α) :
    w.sumOver (n + 1) f = w.add (w.sumOver n fun i => f i.castSucc) (f (Fin.last n)) :=
  Fin.foldl_succ_last ..

/-- Indexed sums and sums of lists agree. -/
theorem sumOver_eq_sum (w : Weights α) (n : Nat) (f : Fin n → α) :
    w.sumOver n f = w.sum (List.ofFn f) := by
  induction n with
  | zero => rfl
  | succ n ih => rw [sumOver_succ, ih, List.ofFn_succ_last, sum_concat]

/-- The weights that say whether there is a path at all: alternatives are joined with "or" and steps
with "and". A weight is `true` when there is a path. -/
def boolean : Weights Bool where
  zero := false
  one := true
  add := or
  mul := and
  same := (· == ·)

end Weights

end PathSum
