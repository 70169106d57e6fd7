import Mathlib.Data.Int.ModEq
import PathSum.Proofs.FixedWidth.Images
import PathSum.Proofs.Matrix.Saturation

/-!
# Weights of 64 bits

A forward pass over counts may stop growing at any of its sums and products, and one over signed
numbers may wrap around at any of them. Both truncations go through sums and products
(`hom_saturate`, `hom_ofInt`), and every word of 64 bits stands for an exact number. So the pass is
the image of an exact pass, and it is enough to truncate the exact sum over all paths once.
-/

namespace PathSum

variable {σ : Type}

/-! ## Truncations -/

/-- Cutting counts off at the largest one goes through sums and products. A sum or a product that
passes the largest count stays there, whatever else is added or multiplied, except for a product
with zero. -/
theorem hom_saturate : (Weights.ofSemiring Nat).Hom .counting saturate where
  map_zero := rfl
  map_add := saturate_add
  map_mul := saturate_mul

/-- Reducing integers modulo `2 ^ 64` goes through sums and products. -/
theorem hom_ofInt : (Weights.ofSemiring Int).Hom RingWeights.wrapping.toWeights Int64.ofInt where
  map_zero := rfl
  map_add := Int64.ofInt_add
  map_mul := Int64.ofInt_mul

/-- A number has exactly one representative of 64 bits. So a result is determined by the exact
number that it is congruent to. -/
theorem toInt_modEq_iff (z : Int) (d : Int64) : d.toInt ≡ z [ZMOD 2 ^ 64] ↔ d = Int64.ofInt z := by
  have hsize : (2 : Int) ^ 64 = (Int64.size : Int) := by decide
  rw [← Int64.toInt_inj, Int64.toInt_ofInt, Int.ModEq, hsize]
  constructor
  · intro h
    rw [← Int.emod_bmod z, ← h, Int.emod_bmod]
    exact (Int64.toInt_bmod_size d).symm
  · intro h
    rw [h, Int.bmod_emod]

/-! ## Exact automata and models -/

/-- The automaton whose weights are the counts as exact numbers. -/
abbrev WeightedAutomaton.exactCounts (A : WeightedAutomaton σ UInt64) : WeightedAutomaton σ Nat :=
  A.image (.ofSemiring Nat) UInt64.toNat

/-- The automaton whose weights are the signed numbers as exact ones. -/
abbrev WeightedAutomaton.exactIntegers (A : WeightedAutomaton σ Int64) : WeightedAutomaton σ Int :=
  A.image (.ofSemiring Int) Int64.toInt

/-- The model whose weights are the counts as exact numbers. -/
abbrev HiddenMarkov.exactCounts (H : HiddenMarkov σ UInt64) : HiddenMarkov σ Nat :=
  H.image (.ofSemiring Nat) UInt64.toNat

/-- The model whose weights are the signed numbers as exact ones. -/
abbrev HiddenMarkov.exactIntegers (H : HiddenMarkov σ Int64) : HiddenMarkov σ Int :=
  H.image (.ofSemiring Int) Int64.toInt

/-! ## All together -/

variable [DecidableEq σ]

/-- **Truncation can wait until the end.** A word of known symbols weighs what the sum over its runs
is, cut off at the largest count or reduced to the one number of 64 bits that is congruent to it,
where the sum and its products are exact. So it is with hidden Markov models, with weights of ending
or without. -/
theorem fixedWidth_exact (word : List σ) :
    (∀ A : WeightedAutomaton σ UInt64, A.weights = .counting →
      (∀ s ∈ word, s ∈ A.transitions.keys) → ∃ steps c,
        A.exactCounts.matrices word = .ok steps ∧ A.run word = .ok c ∧
          c.toNat = min (A.exactCounts.pathSum steps) (2 ^ 64 - 1)) ∧
    (∀ A : WeightedAutomaton σ Int64, A.weights = RingWeights.wrapping.toWeights →
      (∀ s ∈ word, s ∈ A.transitions.keys) → ∃ steps c,
        A.exactIntegers.matrices word = .ok steps ∧ A.run word = .ok c ∧
          ∀ d : Int64, d.toInt ≡ A.exactIntegers.pathSum steps [ZMOD 2 ^ 64] ↔ d = c) ∧
    (∀ H : HiddenMarkov σ UInt64, H.weights = .counting →
      (∀ s ∈ word, s ∈ H.emission.keys) → ∃ shown c,
        H.exactCounts.matrices word = .ok shown ∧ H.forward word = .ok c ∧
          c.toNat = min (H.exactCounts.pathSum shown) (2 ^ 64 - 1)) ∧
    ∀ H : HiddenMarkov σ Int64, H.weights = RingWeights.wrapping.toWeights →
      (∀ s ∈ word, s ∈ H.emission.keys) → ∃ shown c,
        H.exactIntegers.matrices word = .ok shown ∧ H.forward word = .ok c ∧
          ∀ d : Int64, d.toInt ≡ H.exactIntegers.pathSum shown [ZMOD 2 ^ 64] ↔ d = c := by
  have natLaws := (Weights.semiringLaws_ofSemiring Nat).toPathLaws
  have intLaws := (Weights.semiringLaws_ofSemiring Int).toPathLaws
  -- a word that is read as a number and cut off again is the same word, so each machine is the
  -- image of its exact form.
  refine ⟨fun A counting known => ?_, fun A wrapping known => ?_, fun H counting known => ?_,
    fun H wrapping known => ?_⟩
  · obtain ⟨steps, hsteps, hrun⟩ := WeightedAutomaton.exists_run_eq_image
      (counting ▸ hom_saturate) saturate_toNat natLaws known
    exact ⟨steps, _, hsteps, hrun, toNat_saturate _⟩
  · obtain ⟨steps, hsteps, hrun⟩ := WeightedAutomaton.exists_run_eq_image
      (wrapping ▸ hom_ofInt) Int64.ofInt_toInt intLaws known
    exact ⟨steps, _, hsteps, hrun, toInt_modEq_iff _⟩
  · obtain ⟨shown, hshown, hforward⟩ := HiddenMarkov.exists_forward_eq_image
      (counting ▸ hom_saturate) saturate_toNat natLaws known
    exact ⟨shown, _, hshown, hforward, toNat_saturate _⟩
  · obtain ⟨shown, hshown, hforward⟩ := HiddenMarkov.exists_forward_eq_image
      (wrapping ▸ hom_ofInt) Int64.ofInt_toInt intLaws known
    exact ⟨shown, _, hshown, hforward, toInt_modEq_iff _⟩

/-- Two states whose counts no longer fit into 64 bits after the first `a`. -/
def growing : WeightedAutomaton Char UInt64 where
  weights := .counting
  size := 2
  initial := #v[0x8000000000000000, 1]
  final := #v[1, 0]
  transitions := .ofList [('a', .ofFn fun i j => if i = j then 2 else 1)]

/-- A model with weights of both signs that wraps around after the first `u`. -/
def swinging : HiddenMarkov Char Int64 where
  weights := RingWeights.wrapping.toWeights
  size := 2
  transition := .ofFn fun i j => if i = j then 4 else -1
  emission := .ofList [('u', .diagonal RingWeights.wrapping.toWeights #v[4, 3])]
  initial := #v[0x2000000000000000, -5]
  final := some #v[1, 2]

/-- A count that stops at the largest one, and a sum that wraps around. Both are what their exact
sums leave. -/
theorem fixedWidth_exact_growing :
    (∃ steps c, growing.exactCounts.matrices ['a', 'a'] = .ok steps ∧
      growing.exactCounts.pathSum steps = 5 * 2 ^ 63 + 4 ∧
      growing.run ['a', 'a'] = .ok c ∧ c.toNat = 2 ^ 64 - 1) ∧
    ∃ shown, swinging.exactIntegers.matrices ['u'] = .ok shown ∧
      swinging.exactIntegers.pathSum shown = 2 ^ 64 - 105 ∧
      swinging.forward ['u'] = .ok (-105) := by
  have hfirst : 'a' ∈ growing.transitions.keys := by decide
  have hsecond : 'u' ∈ swinging.emission.keys := by decide
  obtain ⟨hcounts, -, -, -⟩ := fixedWidth_exact ['a', 'a']
  obtain ⟨-, -, -, hintegers⟩ := fixedWidth_exact ['u']
  constructor
  · obtain ⟨steps, c, hsteps, hrun, hc⟩ := hcounts growing rfl (by simp [hfirst])
    have hsum : (growing.exactCounts.matrices ['a', 'a']).map growing.exactCounts.pathSum =
        .ok (5 * 2 ^ 63 + 4) := by decide +kernel
    rw [hsteps] at hsum
    have hexact := Except.ok.inj hsum
    exact ⟨steps, c, hsteps, hexact, hrun, hc.trans (by rw [hexact]; rfl)⟩
  · obtain ⟨shown, c, hshown, hforward, hc⟩ := hintegers swinging rfl (by simp [hsecond])
    have hsum : (swinging.exactIntegers.matrices ['u']).map swinging.exactIntegers.pathSum =
        .ok (2 ^ 64 - 105) := by decide +kernel
    rw [hshown] at hsum
    have hexact := Except.ok.inj hsum
    -- of the numbers of 64 bits, only this one is congruent to the exact sum.
    have hwrapped : -105 = c := (hc (-105)).mp (by rw [hexact]; decide)
    exact ⟨shown, hshown, hexact, hwrapped ▸ hforward⟩

end PathSum
