/-!
# Alphabets

A finite set of symbols that keeps the order in which they first came.

Main statements: the alphabet of a list has the symbols of the list (`mem_ofList_iff`), each of them
where it first comes (`symbols_ofList`).
-/

namespace PathSum

universe u

/-- The distinct symbols in order of first appearance. -/
structure Alphabet (σ : Type u) where
  symbols : List σ
  nodup : symbols.Nodup

namespace Alphabet

variable {σ : Type u}

def empty : Alphabet σ where
  symbols := []
  nodup := List.nodup_nil

def size (alphabet : Alphabet σ) : Nat :=
  alphabet.symbols.length

def isEmpty (alphabet : Alphabet σ) : Bool :=
  alphabet.symbols.isEmpty

variable [DecidableEq σ]

def contains (alphabet : Alphabet σ) (symbol : σ) : Bool :=
  decide (symbol ∈ alphabet.symbols)

/-- Adds a symbol at the end, unless it is there already. -/
def insert (alphabet : Alphabet σ) (symbol : σ) : Alphabet σ :=
  if h : symbol ∈ alphabet.symbols then alphabet
  else
    { symbols := alphabet.symbols ++ [symbol]
      nodup := by
        rw [List.nodup_append]
        refine ⟨alphabet.nodup, by simp, ?_⟩
        intro s hs t ht heq
        rw [List.mem_singleton] at ht
        exact h (ht ▸ heq ▸ hs) }

/-- The symbols of a list, each where it first comes. -/
def ofList (symbols : List σ) : Alphabet σ :=
  symbols.foldl insert empty

theorem mem_insert_iff {alphabet : Alphabet σ} {symbol s : σ} :
    s ∈ (alphabet.insert symbol).symbols ↔ s ∈ alphabet.symbols ∨ s = symbol := by
  unfold insert
  by_cases h : symbol ∈ alphabet.symbols
  · rw [dif_pos h]
    exact ⟨.inl, fun hs => hs.elim id fun heq => heq ▸ h⟩
  · rw [dif_neg h, List.mem_append, List.mem_singleton]

theorem mem_foldl_insert_iff {alphabet : Alphabet σ} {symbols : List σ} {s : σ} :
    s ∈ (symbols.foldl insert alphabet).symbols ↔ s ∈ alphabet.symbols ∨ s ∈ symbols := by
  induction symbols generalizing alphabet with
  | nil => simp
  | cons symbol symbols ih => rw [List.foldl_cons, ih, mem_insert_iff, or_assoc, List.mem_cons]

theorem mem_ofList_iff {symbols : List σ} {s : σ} : s ∈ (ofList symbols).symbols ↔ s ∈ symbols := by
  rw [ofList, mem_foldl_insert_iff]
  show s ∈ [] ∨ s ∈ symbols ↔ _
  simp

theorem symbols_insert (alphabet : Alphabet σ) (symbol : σ) :
    (alphabet.insert symbol).symbols =
      alphabet.symbols ++ ([symbol].removeAll alphabet.symbols).eraseDups := by
  rw [insert]
  split
  · next h => simp [List.removeAll, h]
  · next h => simp [List.removeAll, h, List.eraseDups_cons]

/-- The symbols stand in the order in which they first came. What comes again is dropped, so the
list of an alphabet is the given one without repetitions. -/
theorem symbols_ofList (symbols : List σ) : (ofList symbols).symbols = symbols.eraseDups := by
  -- the last symbol is inserted last, so the induction is on the reversed list.
  rw [← symbols.reverse_reverse]
  induction symbols.reverse with
  | nil => rfl
  | cons symbol rest ih =>
    have hinsert : ofList (rest.reverse ++ [symbol]) = (ofList rest.reverse).insert symbol := by
      simp [ofList]
    rw [List.reverse_cons, hinsert, symbols_insert, ih, List.eraseDups_append]
    congr 2
    simp [List.removeAll]

/-- Whether two alphabets have the same symbols, in whatever order. -/
def same (a b : Alphabet σ) : Bool :=
  a.size == b.size && a.symbols.all b.contains

end Alphabet

end PathSum
