/-!
# Sets of characters

A set of characters as a list of ranges with both ends included. The ranges are kept as they were
written: neither sorted nor joined, and a range whose ends are in the wrong order is kept too and
holds nothing.

A character is a member of a set if one of the ranges holds it. `CharSet.contains` is how the
compiler finds this out; `CharSet.contains_iff` says that it finds out the right thing, so what a
pattern describes can be stated by the ranges alone.
-/

namespace PathSum.Regex

/-- Ranges of characters, in the order in which they were written. -/
structure CharSet where
  ranges : List (Char × Char)
deriving DecidableEq, Repr

namespace CharSet

def empty : CharSet := ⟨[]⟩

def isEmpty (set : CharSet) : Bool :=
  set.ranges.isEmpty

/-- Adds the range from `first` to `last` at the end. -/
def pushRange (set : CharSet) (first last : Char) : CharSet :=
  ⟨set.ranges ++ [(first, last)]⟩

/-- Adds a single character, as a range that begins and ends with it. -/
def pushChar (set : CharSet) (c : Char) : CharSet :=
  set.pushRange c c

/-- Whether one of the ranges has the character, looking at one after the other. -/
def contains (set : CharSet) (c : Char) : Bool :=
  set.ranges.any fun range => range.1 ≤ c && c ≤ range.2

/-- A character belongs to a set if it lies between the ends of one of its ranges, ends included.
This says what a class of characters means without asking how membership is decided. -/
instance : Membership Char CharSet where
  mem set c := ∃ range ∈ set.ranges, range.1 ≤ c ∧ c ≤ range.2

instance (set : CharSet) (c : Char) : Decidable (c ∈ set) :=
  inferInstanceAs (Decidable (∃ range ∈ set.ranges, range.1 ≤ c ∧ c ≤ range.2))

@[simp]
theorem ranges_pushRange (set : CharSet) (first last : Char) :
    (set.pushRange first last).ranges = set.ranges ++ [(first, last)] := rfl

@[simp]
theorem ranges_pushChar (set : CharSet) (c : Char) :
    (set.pushChar c).ranges = set.ranges ++ [(c, c)] := rfl

@[simp]
theorem isEmpty_pushRange (set : CharSet) (first last : Char) :
    (set.pushRange first last).isEmpty = false := by
  simp [isEmpty]

@[simp]
theorem isEmpty_pushChar (set : CharSet) (c : Char) : (set.pushChar c).isEmpty = false :=
  set.isEmpty_pushRange c c

theorem isEmpty_iff {set : CharSet} : set.isEmpty = true ↔ set.ranges = [] :=
  List.isEmpty_iff

theorem mem_def {set : CharSet} {c : Char} :
    c ∈ set ↔ ∃ range ∈ set.ranges, range.1 ≤ c ∧ c ≤ range.2 :=
  Iff.rfl

/-- The test that goes through the ranges one by one finds exactly the members. -/
theorem contains_iff {set : CharSet} {c : Char} : set.contains c = true ↔ c ∈ set := by
  rw [contains, List.any_eq_true, mem_def]
  simp only [Bool.and_eq_true, decide_eq_true_eq]

/-- And what it does not find is not a member. -/
theorem contains_eq_false_iff {set : CharSet} {c : Char} : set.contains c = false ↔ c ∉ set := by
  rw [← contains_iff, Bool.not_eq_true]

/-- As a predicate for filtering an alphabet. -/
theorem contains_eq_decide (set : CharSet) : set.contains = fun c => decide (c ∈ set) := by
  funext c
  rw [Bool.eq_iff_iff, contains_iff, decide_eq_true_eq]

end CharSet

end PathSum.Regex
