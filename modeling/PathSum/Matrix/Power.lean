import PathSum.Matrix.Arithmetic

/-!
# Powers and bounded stars

The power `A ^ k` sums over the paths of exactly `k` steps, the bounded star over all paths of at
most a given number of steps.
-/

namespace PathSum.Matrix

universe u

variable {α : Type u} {n : Nat}

/-! ## Powers -/

/-- `acc` times `base ^ k`. Halving `k` squares `base`; an odd `k` takes one factor out. -/
def mulPow (w : Weights α) (acc base : Matrix α n n) (k : Nat) : Matrix α n n :=
  if k = 0 then acc
  else
    let acc := if k % 2 = 1 then acc.mul w base else acc
    if k / 2 = 0 then acc else mulPow w acc (base.mul w base) (k / 2)
termination_by k

/-- The power `A ^ k`, with about as many products as `k` has binary digits. -/
def pow (w : Weights α) (A : Matrix α n n) (k : Nat) : Matrix α n n :=
  mulPow w (identity w n) A k

@[simp]
theorem pow_zero (w : Weights α) (A : Matrix α n n) : A.pow w 0 = identity w n := by
  rw [pow, mulPow, if_pos rfl]

/-! ## Bounded stars -/

/-- Adds the next `steps` powers to `total`, where `power` is the last power that it holds. -/
def addPowers (w : Weights α) (A : Matrix α n n) :
    (steps : Nat) → (total power : Matrix α n n) → Matrix α n n
  | 0, total, _ => total
  | steps + 1, total, power =>
    let power := power.mul w A
    addPowers w A steps (total.add w power) power

/-- The sum of the powers `A ^ 0`, …, `A ^ len`, each made from the one before. -/
def boundedStar (w : Weights α) (A : Matrix α n n) (len : Nat) : Matrix α n n :=
  addPowers w A len (identity w n) (identity w n)

@[simp]
theorem boundedStar_zero (w : Weights α) (A : Matrix α n n) :
    A.boundedStar w 0 = identity w n := rfl

end PathSum.Matrix
