import Mathlib.Data.Fintype.Card
import PathSum.Proofs.Matrix.Lightest

/-!
# Loops add nothing

A step that never makes a weight count for more makes loops superfluous: a path that comes back to
an index is no better than the path without what it did in between. What is left when all loops are
cut out visits every index once, so it has fewer steps than there are indices. From that bound on
the star stays the same, although it sums over more and more paths.

* `alongStops_grows`: a way around does not make a weight count for more.
* `exists_loopless`, `exists_short`: each path is no better than a short one with the same ends.
* `boundedStar_add_stepPower`: the star absorbs all longer paths.
* `boundedStar_eq_of_absorbs`: so two stars with large bounds are equal.
-/

namespace PathSum

universe u

variable {α : Type u} {w : Weights α} {le : α → α → Prop} {n len : Nat} {A : Matrix α n n}

/-! ## Cutting loops -/

section
variable (order : w.PathOrder le) (grows : ∀ x i j, le x (w.mul x (A.entry i j)))
include order grows

theorem alongStops_grows (x : α) (i k : Fin n) (stops : List (Fin n)) :
    le x (w.alongStops A x i (k :: stops)) := by
  induction stops generalizing x i k with
  | nil => exact grows x i k
  | cons k' stops ih => exact order.trans (grows x i k) (ih (w.mul x (A.entry i k)) k k')

/-- What happens before a path comes back to where it started can be left out. The weight at that
point has only grown, and the rest of the path keeps the order. -/
theorem alongStops_cut (x : α) (i : Fin n) (loop rest : List (Fin n)) :
    le (w.alongStops A x i rest) (w.alongStops A x i (loop ++ i :: rest)) := by
  have hloop : w.alongStops A x i (loop ++ i :: rest) =
      w.alongStops A (w.alongStops A x i (loop ++ [i])) i rest := by
    rw [List.append_cons loop i rest, Weights.alongStops_append, List.getLastD_concat]
  rw [hloop]
  apply order.alongStops_le
  cases loop with
  | nil => exact grows x i i
  | cons k loop => exact alongStops_grows order grows x i k (loop ++ [i])

/-- **Every path is no better than one without loops.** The loops are cut out from the end of the
path on: when its rest is without loops, the first index is met at most once more. -/
theorem exists_loopless (x : α) (i : Fin n) (stops : List (Fin n)) :
    ∃ short, (i :: short).Nodup ∧ short.getLastD i = stops.getLastD i ∧
      (short = stops ∨ le (w.alongStops A x i short) (w.alongStops A x i stops)) := by
  induction stops generalizing x i with
  | nil => exact ⟨[], List.nodup_singleton i, rfl, .inl rfl⟩
  | cons k stops ih =>
    obtain ⟨rest, hnodup, hlast, hrest⟩ := ih (w.mul x (A.entry i k)) k
    have hlast' : (k :: rest).getLastD i = (k :: stops).getLastD i := by
      rw [List.getLastD_cons, hlast, List.getLastD_cons]
    by_cases hmem : i ∈ k :: rest
    · -- the rest comes back to `i`, so it can as well start there.
      obtain ⟨loop, short, hsplit⟩ := List.append_of_mem hmem
      have hcut := alongStops_cut order grows x i loop short
      rw [← hsplit] at hcut
      refine ⟨short, ?_, ?_, .inr ?_⟩
      · exact (hsplit ▸ hnodup).sublist (List.sublist_append_right loop (i :: short))
      · rw [← hlast', hsplit]
        simp [List.getLast?_cons]
      · rcases hrest with rfl | hle
        · exact hcut
        · exact order.trans hcut hle
    · refine ⟨k :: rest, List.nodup_cons.mpr ⟨hmem, hnodup⟩, hlast', ?_⟩
      exact hrest.imp (congrArg (k :: ·)) id

/-- A path with at least as many steps as there are indices is no better than a shorter one. It
visits some index twice, so its path without loops is shorter. -/
theorem exists_short {i j : Fin n} {stops : List (Fin n)} (hstops : stops ∈ pathsTo n len i j)
    (hlen : n ≤ len) : ∃ short ∈ pathsWithin n (n - 1) i j,
      le (w.pathWeight A i short) (w.pathWeight A i stops) := by
  obtain ⟨hlength, hlast⟩ := mem_pathsTo.mp hstops
  obtain ⟨short, hnodup, hends, hle⟩ := exists_loopless order grows w.one i stops
  -- a list without repetitions has at most `n` members, and `i` is one of them.
  have hcard := hnodup.length_le_card
  rw [Fintype.card_fin, List.length_cons] at hcard
  refine ⟨short, mem_pathsWithin.mpr ⟨by omega, hends.trans hlast⟩, ?_⟩
  rcases hle with rfl | hle
  · omega
  · exact hle

end

theorem pathsWithin_mono {len' : Nat} {i j : Fin n} {stops : List (Fin n)} (h : len ≤ len')
    (hstops : stops ∈ pathsWithin n len i j) : stops ∈ pathsWithin n len' i j := by
  obtain ⟨hlength, hlast⟩ := mem_pathsWithin.mp hstops
  exact mem_pathsWithin.mpr ⟨hlength.trans h, hlast⟩

/-! ## Stars that stay the same -/

namespace Matrix

/-- If no round changes the star from some bound on, all stars from there on are equal. -/
theorem boundedStar_eq_of_stable
    (stable : ∀ len, n ≤ len + 1 → A.boundedStar w (len + 1) = A.boundedStar w len)
    (hlen : n ≤ len + 1) : A.boundedStar w len = A.boundedStar w (n - 1) := by
  obtain ⟨more, rfl⟩ : ∃ more, len = n - 1 + more := ⟨len - (n - 1), by omega⟩
  clear hlen
  induction more with
  | zero => rfl
  | succ more ih => rw [← Nat.add_assoc, stable (n - 1 + more) (by omega), ih]

end Matrix

namespace Weights

/-- A sum absorbs what one of its terms absorbs. The other terms can be added afterwards, whatever
they are. -/
theorem PathLaws.sum_absorbs (laws : w.PathLaws) {items : List α} {a b : α} (ha : a ∈ items)
    (hab : w.Absorbs a b) : w.Absorbs (w.sum items) b := by
  unfold Absorbs at *
  induction items with
  | nil => exact absurd ha List.not_mem_nil
  | cons c items ih =>
    rw [laws.sum_cons]
    rcases List.mem_cons.mp ha with rfl | hmem
    · rw [laws.add_comm a, laws.add_assoc, hab]
    · rw [laws.add_assoc, ih hmem]

/-- What absorbs all terms absorbs their sum, one term after the other. -/
theorem PathLaws.absorbs_sum (laws : w.PathLaws) {items : List α} {a : α}
    (h : ∀ b ∈ items, w.Absorbs a b) : w.Absorbs a (w.sum items) := by
  unfold Absorbs at *
  induction items with
  | nil => exact laws.add_zero a
  | cons b items ih =>
    have hb := h b List.mem_cons_self
    have hitems := ih fun c hc => h c (List.mem_cons_of_mem b hc)
    rw [laws.sum_cons, ← laws.add_assoc, hb, hitems]

end Weights

namespace Matrix

variable (laws : w.PathLaws) (absorbs : ∀ x i j, w.add x (w.mul x (A.entry i j)) = x)
include laws absorbs

theorem boundedStar_add_stepPower (hlen : n ≤ len + 1) :
    (A.boundedStar w len).add w (stepPower w A (len + 1)) = A.boundedStar w len := by
  apply ext_entry
  intro i j
  rw [entry_add, entry_boundedStar laws, entry_stepPower laws]
  apply laws.absorbs_sum
  intro y hy
  obtain ⟨stops, hstops, rfl⟩ := List.mem_map.mp hy
  -- some short path absorbs the long one, and the star has all short paths.
  obtain ⟨short, hshort, habsorbs⟩ := exists_short laws.pathOrder absorbs hstops hlen
  have hmem : short ∈ pathsWithin n len i j := pathsWithin_mono (by omega) hshort
  exact laws.sum_absorbs (List.mem_map_of_mem hmem) habsorbs

/-- **The star stays the same** from the bound on that lets a path visit every index. -/
theorem boundedStar_eq_of_absorbs (hlen : n ≤ len + 1) :
    A.boundedStar w len = A.boundedStar w (n - 1) := by
  refine boundedStar_eq_of_stable (fun len hlen => ?_) hlen
  rw [boundedStar_succ, boundedStar_add_stepPower laws absorbs hlen]

end Matrix

/-- Where adding takes the lesser, the star is not above any longer path. Such a path is no better
than a shorter one, and the star has that one already. -/
theorem Weights.Selects.boundedStar_le_stepPower (sel : w.Selects le)
    (grows : ∀ x i j, le x (w.mul x (A.entry i j))) (le_zero : ∀ x, le x w.zero)
    (hlen : n ≤ len + 1) (i j : Fin n) :
    le ((A.boundedStar w len).entry i j) ((Matrix.stepPower w A (len + 1)).entry i j) := by
  have hstar := Matrix.lightest_boundedStar (A := A) sel len i j
  rcases (Matrix.lightest_stepPower (A := A) sel (len + 1) i j).reached with hzero | hpath
  · rw [hzero]
    exact le_zero _
  · obtain ⟨stops, hstops, hweight⟩ := hpath
    obtain ⟨short, hshort, hle⟩ := exists_short sel.toPathOrder grows hstops hlen
    rw [← hweight]
    exact sel.trans (hstar.least short (pathsWithin_mono (by omega) hshort)) hle

end PathSum
