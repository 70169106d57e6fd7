import PathSum.Regex.Nfa

/-!
# Edges and paths of an automaton

Which edges the matrices of an automaton hold: just those of a fragment (`Nfa.Consists`), and few
that leave the same state (`Nfa.Sparse`). In the automata of patterns, silent edges and edges that
read never leave the same state.

A path (`Nfa.Path`) follows edges from one state to another, with any number of silent edges before,
between and after the symbols that it reads. The words on the paths from the start to the accepting
state are those that the automaton accepts.
-/

namespace PathSum.Regex.Nfa

/-- There is an edge that reads a symbol. -/
def Reads (nfa : Nfa) (s : Fin nfa.size) (c : Char) (t : Fin nfa.size) : Prop :=
  ∃ A, nfa.labelled.get? c = some A ∧ A.entry s t = true

/-- How many silent edges leave a state. -/
def silentOut (nfa : Nfa) (s : Fin nfa.size) : Nat :=
  (List.finRange nfa.size).countP fun t => nfa.silent.entry s t

/-- The automaton has the states of a fragment and just its edges. -/
structure Consists (nfa : Nfa) (f : Fragment) : Prop where
  size_eq : nfa.size = f.next
  start_eq : nfa.start.val = f.start
  accept_eq : nfa.accept.val = f.accept
  silent_iff : ∀ s t, (s, t) ∈ f.silent ↔
    ∃ i j, nfa.silent.entry i j = true ∧ i.val = s ∧ j.val = t
  labelled_iff : ∀ s c t, (s, c, t) ∈ f.labelled ↔ ∃ i j, nfa.Reads i c j ∧ i.val = s ∧ j.val = t

/-- Nothing leaves the accepting state, which is not the start. Any other state is left by two
silent edges at most, or by edges that read and that all lead to one state. -/
structure Sparse (nfa : Nfa) : Prop where
  start_ne_accept : nfa.start ≠ nfa.accept
  silentOut_accept : nfa.silentOut nfa.accept = 0
  not_reads_accept : ∀ c t, ¬ nfa.Reads nfa.accept c t
  silentOut_le : ∀ s, nfa.silentOut s ≤ 2
  silentOut_of_reads : ∀ s c t, nfa.Reads s c t → nfa.silentOut s = 0
  target_eq : ∀ s c t c' t', nfa.Reads s c t → nfa.Reads s c' t' → t = t'

/-! ## Paths -/

/-- A word can be read on the way from one state to another. -/
inductive Path (nfa : Nfa) : Fin nfa.size → List Char → Fin nfa.size → Prop where
  | nil (i : Fin nfa.size) : Path nfa i [] i
  | silent {i j k : Fin nfa.size} {word : List Char} :
      nfa.silent.entry i j = true → Path nfa j word k → Path nfa i word k
  | read {i j k : Fin nfa.size} {c : Char} {word : List Char} {A : Matrix Bool nfa.size nfa.size} :
      nfa.labelled.get? c = some A → A.entry i j = true → Path nfa j word k →
        Path nfa i (c :: word) k

/-- One path can be continued by another. -/
theorem Path.append {nfa : Nfa} {i j k : Fin nfa.size} {u v : List Char} (first : nfa.Path i u j)
    (second : nfa.Path j v k) : nfa.Path i (u ++ v) k := by
  induction first with
  | nil => exact second
  | silent edge _ ih => exact .silent edge (ih second)
  | read known edge _ ih => exact .read known edge (ih second)

/-- A word is accepted if it can be read from the start to the accepting state. -/
def Accepts (nfa : Nfa) (word : List Char) : Prop :=
  nfa.Path nfa.start word nfa.accept

end PathSum.Regex.Nfa
