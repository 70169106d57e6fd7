import PathSum.Alphabet
import PathSum.Regex.Pattern

/-!
# The words of a regular expression

Which words a regular expression describes. It does not refer to automata, and it says by the
ranges of a class which characters belong to it, so it says what a compiled pattern has to accept.

Main statements: the words of each kind of tree, as equivalences.
-/

namespace PathSum.Regex

/-- A word that a regular expression describes. Characters that a class excludes, and the wildcard,
range over the alphabet. -/
inductive Tree.Matches (alphabet : Alphabet Char) : Tree → List Char → Prop where
  | empty : Matches alphabet .empty []
  | char (c : Char) : Matches alphabet (.char c) [c]
  | oneOf {set : CharSet} {c : Char} : c ∈ set → Matches alphabet (.oneOf set) [c]
  | noneOf {set : CharSet} {c : Char} :
      c ∈ alphabet.symbols → c ∉ set → Matches alphabet (.noneOf set) [c]
  | any {c : Char} : c ∈ alphabet.symbols → Matches alphabet .any [c]
  | seq {left right : Tree} {u v : List Char} :
      Matches alphabet left u → Matches alphabet right v →
        Matches alphabet (.seq left right) (u ++ v)
  | altLeft {left right : Tree} {word : List Char} :
      Matches alphabet left word → Matches alphabet (.alt left right) word
  | altRight {left right : Tree} {word : List Char} :
      Matches alphabet right word → Matches alphabet (.alt left right) word
  | starNil {inner : Tree} : Matches alphabet (.star inner) []
  | starCons {inner : Tree} {u v : List Char} :
      Matches alphabet inner u → Matches alphabet (.star inner) v →
        Matches alphabet (.star inner) (u ++ v)

namespace Tree

variable {alphabet : Alphabet Char} {word : List Char}

@[simp]
theorem matches_empty_iff : Matches alphabet .empty word ↔ word = [] := by
  constructor
  · intro h
    cases h
    rfl
  · rintro rfl
    exact .empty

@[simp]
theorem matches_char_iff {c : Char} : Matches alphabet (.char c) word ↔ word = [c] := by
  constructor
  · intro h
    cases h
    rfl
  · rintro rfl
    exact .char c

theorem matches_oneOf_iff {set : CharSet} :
    Matches alphabet (.oneOf set) word ↔ ∃ c, word = [c] ∧ c ∈ set := by
  constructor
  · intro h
    cases h with
    | oneOf hc => exact ⟨_, rfl, hc⟩
  · rintro ⟨c, rfl, hc⟩
    exact .oneOf hc

theorem matches_noneOf_iff {set : CharSet} :
    Matches alphabet (.noneOf set) word ↔
      ∃ c, word = [c] ∧ c ∈ alphabet.symbols ∧ c ∉ set := by
  constructor
  · intro h
    cases h with
    | noneOf hc hset => exact ⟨_, rfl, hc, hset⟩
  · rintro ⟨c, rfl, hc, hset⟩
    exact .noneOf hc hset

theorem matches_any_iff :
    Matches alphabet .any word ↔ ∃ c, word = [c] ∧ c ∈ alphabet.symbols := by
  constructor
  · intro h
    cases h with
    | any hc => exact ⟨_, rfl, hc⟩
  · rintro ⟨c, rfl, hc⟩
    exact .any hc

theorem matches_seq_iff {left right : Tree} :
    Matches alphabet (.seq left right) word ↔
      ∃ u v, word = u ++ v ∧ Matches alphabet left u ∧ Matches alphabet right v := by
  constructor
  · intro h
    cases h with
    | seq hl hr => exact ⟨_, _, rfl, hl, hr⟩
  · rintro ⟨u, v, rfl, hl, hr⟩
    exact .seq hl hr

theorem matches_alt_iff {left right : Tree} :
    Matches alphabet (.alt left right) word ↔
      Matches alphabet left word ∨ Matches alphabet right word := by
  constructor
  · intro h
    cases h with
    | altLeft hl => exact .inl hl
    | altRight hr => exact .inr hr
  · intro h
    cases h with
    | inl hl => exact .altLeft hl
    | inr hr => exact .altRight hr

/-- The words of a star are built from the empty word by putting words of its operand in front. So
what holds of the empty word, and goes over from a word to every such longer one, holds of them all.
-/
theorem Matches.star_induction {inner : Tree} {P : List Char → Prop}
    (h : Matches alphabet (.star inner) word) (nil : P [])
    (cons : ∀ u v, Matches alphabet inner u → Matches alphabet (.star inner) v → P v → P (u ++ v)) :
    P word := by
  generalize htree : Tree.star inner = tree at h
  induction h with
  | starNil => exact nil
  | starCons hu hv _ ih =>
    cases htree
    exact cons _ _ hu hv (ih rfl)
  | _ => cases htree

end Tree

end PathSum.Regex
