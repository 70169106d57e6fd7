/-!
# Pairs of indices

A pair of an index below `m` and an index below `n` is numbered by one index below `m * n`, block
after block: all pairs with the first component `0` come first. Entries of a matrix are stored in
this order, and pairs of states are numbered by it.

Main statements: `fst` and `snd` undo `pair`, every index is the number of its pair, and triples
have the same number whichever two of their components are paired first (`cast_pair_pair`).
-/

namespace PathSum.Index

variable {m n : Nat}

theorem pair_lt (i : Fin m) (j : Fin n) : i * n + j < m * n :=
  calc i * n + j < i * n + n := Nat.add_lt_add_left j.isLt _
    _ = (i + 1) * n := (Nat.succ_mul ..).symm
    _ ≤ m * n := Nat.mul_le_mul_right n i.isLt

/-- The number of a pair. -/
@[inline]
def pair (i : Fin m) (j : Fin n) : Fin (m * n) :=
  ⟨i * n + j, pair_lt i j⟩

def fst (p : Fin (m * n)) : Fin m :=
  ⟨p / n, Nat.div_lt_of_lt_mul (Nat.mul_comm m n ▸ p.isLt)⟩

def snd (p : Fin (m * n)) : Fin n :=
  ⟨p % n, Nat.mod_lt _ (Nat.pos_of_mul_pos_left (Nat.zero_lt_of_lt p.isLt))⟩

@[simp]
theorem val_pair (i : Fin m) (j : Fin n) : (pair i j : Nat) = i * n + j := rfl

@[simp]
theorem fst_pair (i : Fin m) (j : Fin n) : fst (pair i j) = i := by
  have hn : 0 < n := Nat.zero_lt_of_lt j.isLt
  apply Fin.ext
  show (i * n + j : Nat) / n = i
  rw [Nat.add_comm, Nat.add_mul_div_right _ _ hn, Nat.div_eq_of_lt j.isLt, Nat.zero_add]

@[simp]
theorem snd_pair (i : Fin m) (j : Fin n) : snd (pair i j) = j := by
  apply Fin.ext
  show (i * n + j : Nat) % n = j
  rw [Nat.add_comm, Nat.add_mul_mod_self_right, Nat.mod_eq_of_lt j.isLt]

@[simp]
theorem pair_fst_snd (p : Fin (m * n)) : pair (fst p) (snd p) = p := by
  apply Fin.ext
  show p / n * n + p % n = (p : Nat)
  rw [Nat.mul_comm]
  exact Nat.div_add_mod p n

theorem pair_inj {i k : Fin m} {j l : Fin n} : pair k l = pair i j ↔ k = i ∧ l = j := by
  constructor
  · intro h
    have hfst := congrArg fst h
    have hsnd := congrArg snd h
    simp only [fst_pair, snd_pair] at hfst hsnd
    exact ⟨hfst, hsnd⟩
  · rintro ⟨rfl, rfl⟩
    rfl

theorem exists_pair (p : Fin (m * n)) : ∃ i j, p = pair i j :=
  ⟨fst p, snd p, (pair_fst_snd p).symm⟩

theorem cast_pair_pair {p : Nat} (i : Fin m) (j : Fin n) (k : Fin p) :
    (pair i (pair j k)).cast (Nat.mul_assoc m n p).symm = pair (pair i j) k := by
  apply Fin.ext
  show i * (n * p) + (j * p + k) = ((i * n + j) * p + k : Nat)
  rw [Nat.add_mul, Nat.mul_assoc, Nat.add_assoc]

end PathSum.Index
