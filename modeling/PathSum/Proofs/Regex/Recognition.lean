import PathSum.Proofs.Regex.Fragments
import PathSum.Regex.Edges
import PathSum.Regex.Language

/-!
# Automata of patterns recognise trees

The automaton of a pattern accepts exactly the words over the alphabet that the tree of the pattern
describes.

* **`Tree.Describes`**: words over the alphabet only. That is what a fragment can read, since it has
  no edges for other characters.
* **`Pattern.accepts_fragment_iff`**: the induction over the pattern, with one equivalence of
  fragments and one of trees in each case.
* **`Nfa.path_ofFragment_iff`**: the automaton has the edges of the fragment and no others.
-/

namespace PathSum.Regex

/-! ## What trees describe -/

namespace Tree

variable {alphabet : Alphabet Char} {left right inner : Tree} {word : List Char}

/-- A word over the alphabet that a tree describes. A tree describes the same words over every
alphabet that has its characters; a fragment has edges for the symbols of the alphabet only. -/
def Describes (alphabet : Alphabet Char) (tree : Tree) (word : List Char) : Prop :=
  (∀ c ∈ word, c ∈ alphabet.symbols) ∧ tree.Matches alphabet word

theorem describes_empty_iff : Describes alphabet .empty word ↔ word = [] := by
  rw [Describes, matches_empty_iff]
  constructor
  · rintro ⟨_, rfl⟩
    rfl
  · rintro rfl
    exact ⟨fun _ hc => absurd hc List.not_mem_nil, rfl⟩

theorem describes_seq_iff :
    Describes alphabet (.seq left right) word ↔
      ∃ u v, word = u ++ v ∧ Describes alphabet left u ∧ Describes alphabet right v := by
  rw [Describes, matches_seq_iff]
  constructor
  · rintro ⟨hword, u, v, rfl, hu, hv⟩
    rw [List.forall_mem_append] at hword
    exact ⟨u, v, rfl, ⟨hword.1, hu⟩, hword.2, hv⟩
  · rintro ⟨u, v, rfl, ⟨hword, hu⟩, hword', hv⟩
    exact ⟨List.forall_mem_append.mpr ⟨hword, hword'⟩, u, v, rfl, hu, hv⟩

theorem describes_alt_iff :
    Describes alphabet (.alt left right) word ↔
      Describes alphabet left word ∨ Describes alphabet right word := by
  rw [Describes, matches_alt_iff, and_or_left]
  rfl

theorem describes_star_iff :
    Describes alphabet (.star inner) word ↔ Fragment.Repeated (Describes alphabet inner) word := by
  constructor
  · rintro ⟨hword, h⟩
    revert hword
    refine h.star_induction (P := fun word => (∀ c ∈ word, c ∈ alphabet.symbols) →
      Fragment.Repeated (Describes alphabet inner) word) (fun _ => .nil) ?_
    intro u v hu _ ih hword
    rw [List.forall_mem_append] at hword
    exact .cons ⟨hword.1, hu⟩ (ih hword.2)
  · intro h
    induction h with
    | nil => exact ⟨fun _ hc => absurd hc List.not_mem_nil, .starNil⟩
    | cons hu _ ih => exact ⟨List.forall_mem_append.mpr ⟨hu.1, ih.1⟩, .starCons hu.2 ih.2⟩

end Tree

namespace Pattern

variable {alphabet : Alphabet Char} {word : List Char}

theorem within_fragment (alphabet : Alphabet Char) (pattern : Pattern) (next : Nat) :
    (pattern.fragment alphabet next).Within next := by
  induction pattern generalizing next with
  | char | any | oneOf | noneOf => exact Fragment.within_symbols ..
  | seq left right ihl ihr => exact (ihl next).seq (ihr _)
  | alt left right ihl ihr => exact (ihl next).alt (ihr _)
  | star inner ih => exact (ih next).star
  | plus inner ih => exact (ih next).plus
  | opt inner ih => exact (Fragment.within_empty next).alt (ih (next + 2))

/-- **Fragments recognise trees.** The fragment of a pattern reads the words over the alphabet that
its tree describes. -/
theorem accepts_fragment_iff (pattern : Pattern) (next : Nat) :
    (pattern.fragment alphabet next).Accepts word ↔ pattern.tree.Describes alphabet word := by
  induction pattern generalizing next word with
  | char c =>
    rw [fragment, Fragment.accepts_symbols_iff, tree, Tree.Describes, Tree.matches_char_iff]
    simp only [List.mem_filter, decide_eq_true_eq]
    constructor
    · rintro ⟨s, ⟨hs, rfl⟩, rfl⟩
      exact ⟨by simpa using hs, rfl⟩
    · rintro ⟨hword, rfl⟩
      exact ⟨c, ⟨hword c (List.mem_singleton.mpr rfl), rfl⟩, rfl⟩
  | any =>
    rw [fragment, Fragment.accepts_symbols_iff, tree, Tree.Describes, Tree.matches_any_iff]
    constructor
    · rintro ⟨c, hc, rfl⟩
      exact ⟨by simpa using hc, c, rfl, hc⟩
    · rintro ⟨_, c, rfl, hc⟩
      exact ⟨c, hc, rfl⟩
  | oneOf set =>
    rw [fragment, Fragment.accepts_symbols_iff, tree, Tree.Describes, Tree.matches_oneOf_iff]
    simp only [List.mem_filter, CharSet.contains_iff]
    constructor
    · rintro ⟨c, ⟨hc, hset⟩, rfl⟩
      exact ⟨by simpa using hc, c, rfl, hset⟩
    · rintro ⟨hword, c, rfl, hset⟩
      exact ⟨c, ⟨hword c (List.mem_singleton.mpr rfl), hset⟩, rfl⟩
  | noneOf set =>
    rw [fragment, Fragment.accepts_symbols_iff, tree, Tree.Describes, Tree.matches_noneOf_iff]
    simp only [List.mem_filter, Bool.not_eq_true', CharSet.contains_eq_false_iff]
    constructor
    · rintro ⟨c, ⟨hc, hset⟩, rfl⟩
      exact ⟨by simpa using hc, c, rfl, hc, hset⟩
    · rintro ⟨_, c, rfl, hc, hset⟩
      exact ⟨c, ⟨hc, hset⟩, rfl⟩
  | seq left right ihl ihr =>
    rw [fragment, tree, Fragment.accepts_seq_iff (within_fragment ..) (within_fragment ..),
      Tree.describes_seq_iff]
    simp only [ihl, ihr]
  | alt left right ihl ihr =>
    rw [fragment, tree, Fragment.accepts_alt_iff (within_fragment ..) (within_fragment ..),
      Tree.describes_alt_iff, ihl, ihr]
  | star inner ih =>
    -- the words of the operand are compared as a whole, since there is any number of them.
    have hinner : (inner.fragment alphabet next).Accepts = inner.tree.Describes alphabet :=
      funext fun _ => propext (ih next)
    rw [fragment, tree, Fragment.accepts_star_iff (within_fragment ..), hinner,
      Tree.describes_star_iff]
  | plus inner ih =>
    have hinner : (inner.fragment alphabet next).Accepts = inner.tree.Describes alphabet :=
      funext fun _ => propext (ih next)
    rw [fragment, tree, Fragment.accepts_plus_iff (within_fragment ..), hinner,
      Tree.describes_seq_iff]
    simp only [Tree.describes_star_iff]
  | opt inner ih =>
    rw [fragment, tree, Fragment.accepts_alt_iff (Fragment.within_empty next)
      (within_fragment alphabet inner (next + 2)), Fragment.accepts_empty_iff, ih,
      Tree.describes_alt_iff, Tree.describes_empty_iff]

end Pattern

/-! ## Whole automata -/

namespace Nfa

variable {alphabet : Alphabet Char} {fragment : Fragment} {word : List Char}
  {hstart : fragment.start < fragment.next} {haccept : fragment.accept < fragment.next}

theorem silent_ofFragment_iff {i j : Fin fragment.next} :
    (ofFragment alphabet fragment hstart haccept).silent.entry i j = true ↔
      (i.val, j.val) ∈ fragment.silent := by
  rw [Graph.entry_relation, decide_eq_true_eq]

/-- The edges for one character, without it. The matrix for the character has exactly these. -/
theorem mem_filterMap_label {edges : List (Nat × Char × Nat)} {c : Char} {i j : Nat} :
    (i, j) ∈ edges.filterMap (fun (source, label, target) =>
        if label = c then some (source, target) else none) ↔ (i, c, j) ∈ edges := by
  rw [List.mem_filterMap]
  constructor
  · rintro ⟨⟨s, d, t⟩, hedge, hlabel⟩
    -- only the edges with the label `c` are left.
    by_cases hd : d = c
    · simp only [hd, if_true, Option.some.injEq, Prod.mk.injEq] at hlabel
      obtain ⟨rfl, rfl⟩ := hlabel
      exact hd ▸ hedge
    · simp [hd] at hlabel
  · intro hedge
    exact ⟨_, hedge, if_pos rfl⟩

/-- Edges for one character make the same relation if they are the same for that character, in
whatever order they come. -/
theorem relation_filterMap_label_eq {n : Nat} {edges edges' : List (Nat × Char × Nat)} {c : Char}
    (h : ∀ i j, (i, c, j) ∈ edges ↔ (i, c, j) ∈ edges') :
    Graph.relation n (edges.filterMap fun (source, label, target) =>
        if label = c then some (source, target) else none) =
      Graph.relation n (edges'.filterMap fun (source, label, target) =>
        if label = c then some (source, target) else none) := by
  apply Matrix.ext_entry
  intro i j
  rw [Graph.entry_relation, Graph.entry_relation]
  exact decide_eq_decide.mpr
    (mem_filterMap_label.trans ((h i j).trans mem_filterMap_label.symm))

theorem labelled_ofFragment_iff {c : Char} {i j : Fin fragment.next} :
    (∃ A, (ofFragment alphabet fragment hstart haccept).labelled.get? c = some A ∧
        A.entry i j = true) ↔
      c ∈ alphabet.symbols ∧ (i.val, c, j.val) ∈ fragment.labelled := by
  rw [SymbolMap.get?_ofKeys]
  by_cases hc : c ∈ alphabet.symbols
  · rw [if_pos hc]
    simp only [Option.some.injEq, exists_eq_left', Graph.entry_relation, decide_eq_true_eq, hc,
      true_and, mem_filterMap_label]
  · rw [if_neg hc]
    simp [hc]

/-- A path of an automaton whose edges are all edges of a fragment is a path of that fragment. -/
theorem Path.of_edges {nfa : Nfa} {i j : Fin nfa.size} {symbols : List Char}
    (path : nfa.Path i word j)
    (silent : ∀ i j, nfa.silent.entry i j = true → (i.val, j.val) ∈ fragment.silent)
    (labelled : ∀ c A i j, nfa.labelled.get? c = some A → A.entry i j = true →
      c ∈ symbols ∧ (i.val, c, j.val) ∈ fragment.labelled) :
    (∀ c ∈ word, c ∈ symbols) ∧ fragment.Path i.val word j.val := by
  induction path with
  | nil i => exact ⟨fun _ hc => absurd hc List.not_mem_nil, .nil _⟩
  | silent hedge _ ih => exact ⟨ih.1, .silent (silent _ _ hedge) ih.2⟩
  | read known hedge _ ih =>
    obtain ⟨hc, hlabel⟩ := labelled _ _ _ _ known hedge
    exact ⟨List.forall_mem_cons.mpr ⟨hc, ih.1⟩, .read hlabel ih.2⟩

/-- The paths of the automaton are those of the fragment that read symbols of the alphabet. A
fragment has all its edges below the number of states, so none is lost in the matrices. -/
theorem path_ofFragment_iff (within : fragment.Within 0) {s t : Nat} (hs : s < fragment.next)
    (ht : t < fragment.next) :
    (ofFragment alphabet fragment hstart haccept).Path ⟨s, hs⟩ word ⟨t, ht⟩ ↔
      (∀ c ∈ word, c ∈ alphabet.symbols) ∧ fragment.Path s word t := by
  constructor
  · intro path
    exact path.of_edges (fun _ _ hedge => silent_ofFragment_iff.mp hedge)
      fun c A _ _ known hedge => labelled_ofFragment_iff.mp ⟨A, known, hedge⟩
  · rintro ⟨hword, path⟩
    induction path with
    | nil => exact .nil _
    | silent hedge _ ih =>
      -- the edge ends in the block, so its end is a state of the automaton.
      have hx := (within.silent_mem _ _ hedge).2.2
      exact .silent (j := ⟨_, hx⟩) (silent_ofFragment_iff.mpr hedge) (ih hx ht hword)
    | read hedge _ ih =>
      have hx := (within.labelled_mem _ _ _ hedge).2.2
      rw [List.forall_mem_cons] at hword
      obtain ⟨A, known, hentry⟩ := labelled_ofFragment_iff (i := ⟨_, hs⟩) (j := ⟨_, hx⟩) |>.mpr
        ⟨hword.1, hedge⟩
      exact .read known hentry (ih hx ht hword.2)

/-- The automaton of a pattern accepts the words over the alphabet that its tree describes. This is
what the fragment accepts, seen through its matrices. -/
theorem accepts_ofPattern_iff {pattern : Pattern} :
    (ofPattern alphabet pattern).Accepts word ↔ pattern.tree.Describes alphabet word := by
  obtain ⟨_, hstart, haccept⟩ := pattern.lt_next_fragment alphabet 0
  have hpath : (ofFragment alphabet (pattern.fragment alphabet 0) hstart haccept).Accepts word ↔
      (∀ c ∈ word, c ∈ alphabet.symbols) ∧ (pattern.fragment alphabet 0).Accepts word :=
    path_ofFragment_iff (pattern.within_fragment alphabet 0) hstart haccept
  refine hpath.trans ?_
  rw [Pattern.accepts_fragment_iff]
  exact ⟨And.right, fun h => ⟨h.1, h⟩⟩

end Nfa

end PathSum.Regex
