import PathSum.Proofs.Regex.Numbering
import PathSum.Proofs.Regex.Soundness
import PathSum.Regex.Compiled
import PathSum.Regex.Marks

/-!
# Sizes read off the text

How many nodes the table of a pattern has and how many states its automaton has, counted in the text
of the pattern.

* **`Spans`**: marks that make up a pattern. They begin and end like one, and what there is to count
  in them gives both sizes. There is a lemma for each way to put patterns together; nowhere but
  between two atoms does a joint come in.
* **`Derives.exists_marks`**: the marks of a pattern make it up, by induction on the grammar; they
  do not depend on what comes behind it. This goes for anything that is kept when patterns are put
  together (`Composes`).
* **`size_compile_exact`**: both sizes, and that they are linear in the length of the text.
-/

namespace PathSum.Regex

/-! ## What marks come to -/

/-- The nodes that the parts of a text take in a table. -/
def nodeCount (ms : List Mark) : Nat :=
  ms.count .leaf + joints ms + ms.count .bar + ms.count .star + 2 * ms.count .plus +
    2 * ms.count .opt

/-- The states that the parts of a text take in an automaton. -/
def stateCount (ms : List Mark) : Nat :=
  2 * ms.count .leaf + 2 * ms.count .bar + 2 * ms.count .star + ms.count .plus + 4 * ms.count .opt

theorem nodeCount_append {left right : List Mark} {k : Nat}
    (h : joints (left ++ right) = joints left + joints right + k) :
    nodeCount (left ++ right) = nodeCount left + nodeCount right + k := by
  simp only [nodeCount, List.count_append, h]
  omega

theorem stateCount_append (left right : List Mark) :
    stateCount (left ++ right) = stateCount left + stateCount right := by
  simp only [stateCount, List.count_append]
  omega

/-- Marks that make up a pattern: the first begins an atom and the last ends one, every atom but the
first comes behind a joint or a bar, and the counts are what the pattern adds to the nodes of a
table and to the states of an automaton. -/
structure Spans (ms : List Mark) (p : Pattern) : Prop where
  begins : ms.head?.any Mark.begins = true
  ends : ms.getLast?.any Mark.ends = true
  atoms : ms.count .leaf = joints ms + ms.count .bar + 1
  nodes : ∀ table : Array Node, (p.number table).1.size = table.size + nodeCount ms
  states : ∀ (alphabet : Alphabet Char) (next : Nat),
    (p.fragment alphabet next).next = next + stateCount ms

namespace Spans

variable {ms ms' : List Mark} {m : Mark} {p q : Pattern}

theorem begins_append (h : Spans ms p) (right : List Mark) :
    (ms ++ right).head?.any Mark.begins = true := by
  have hbegins := h.begins
  cases ms with
  | nil => exact nomatch hbegins
  | cons => exact hbegins

theorem ends_append (h : Spans ms p) (left : List Mark) :
    (left ++ ms).getLast?.any Mark.ends = true := by
  have hends := h.ends
  rw [List.getLast?_append]
  cases hlast : ms.getLast? with
  | none =>
    rw [hlast] at hends
    exact nomatch hends
  | some m =>
    rw [hlast] at hends
    exact hends

/-- A mark that begins no atom makes no joint with what stands before it. -/
theorem joints_append_cons (hm : m.begins = false) (left right : List Mark) :
    joints (left ++ m :: right) = joints left + joints (m :: right) := by
  rw [joints_append, List.head?_cons, Option.any_some, hm, Bool.and_false]
  rfl

/-- A mark that ends no atom makes no joint with what stands behind it. -/
theorem joints_cons (hm : m.ends = false) (right : List Mark) :
    joints (m :: right) = joints right := by
  cases right with
  | nil => rfl
  | cons b right => simp [joints, hm]

/-- A pattern without operands is one node and two states, and its text has one mark. -/
theorem leaf (h : p.taskCount = 1) : Spans [.leaf] p where
  begins := rfl
  ends := rfl
  atoms := rfl
  nodes table := by
    cases p with
    | char | any | oneOf | noneOf => exact Array.size_push ..
    | _ => simp [Pattern.taskCount] at h
  states alphabet next := by
    cases p with
    | char | any | oneOf | noneOf => rfl
    | _ => simp [Pattern.taskCount] at h

/-- Parentheses count for nothing. They begin and end an atom, as the text between them does. -/
theorem group (h : Spans ms p) : Spans (.opened :: (ms ++ [.closed])) p := by
  have hjoints : joints (.opened :: (ms ++ [.closed])) = joints ms :=
    (joints_cons rfl _).trans (joints_append_cons rfl ms [])
  exact
    { begins := rfl
      ends := by rw [← List.cons_append, List.getLast?_concat]; rfl
      atoms := by simp [hjoints, h.atoms]
      nodes := by simp [nodeCount, hjoints, h.nodes]
      states := by simp [stateCount, h.states] }

/-- A repetition comes behind the atom, whatever it does with it. How many nodes and states it adds
is told by its sign alone. -/
theorem repetition (hm : m = .star ∨ m = .plus ∨ m = .opt) (h : Spans ms p)
    (hnodes : ∀ table : Array Node,
      (q.number table).1.size = (p.number table).1.size + nodeCount [m])
    (hstates : ∀ (alphabet : Alphabet Char) (next : Nat),
      (q.fragment alphabet next).next = next + stateCount ms + stateCount [m]) :
    Spans (ms ++ [m]) q := by
  have hbegins : m.begins = false := by obtain rfl | rfl | rfl := hm <;> rfl
  have hends : m.ends = true := by obtain rfl | rfl | rfl := hm <;> rfl
  -- the sign is not an atom and stands between no two, so the balance of atoms stays.
  have hatoms : [m].count .leaf = 0 ∧ [m].count .bar = 0 := by
    obtain rfl | rfl | rfl := hm <;> exact ⟨rfl, rfl⟩
  have hjoints : joints (ms ++ [m]) = joints ms + joints [m] := joints_append_cons hbegins ms []
  exact
    { begins := h.begins_append _
      ends := by rw [List.getLast?_concat, Option.any_some, hends]
      atoms := by
        rw [List.count_append, List.count_append, hatoms.1, hatoms.2, hjoints]
        exact h.atoms
      nodes := fun table => by
        rw [hnodes, h.nodes, nodeCount_append (k := 0) hjoints, Nat.add_assoc, Nat.add_zero]
      states := fun alphabet next => by
        rw [hstates, stateCount_append, Nat.add_assoc] }

/-- One node for the star itself, and the two states that every fragment of a star has. -/
theorem star (h : Spans ms p) : Spans (ms ++ [.star]) (.star p) := by
  apply h.repetition (.inl rfl)
  · intro table
    exact Array.size_push ..
  · intro alphabet next
    show (p.fragment alphabet next).next + 2 = next + stateCount ms + 2
    rw [h.states]

/-- The operand has its nodes and its states once. -/
theorem plus (h : Spans ms p) : Spans (ms ++ [.plus]) (.plus p) := by
  apply h.repetition (.inr (.inl rfl))
  · intro table
    show (((p.number table).1.push _).push _).size = (p.number table).1.size + 2
    rw [Array.size_push, Array.size_push]
  · intro alphabet next
    show (p.fragment alphabet next).next + 1 = next + stateCount ms + 1
    rw [h.states]

theorem opt (h : Spans ms p) : Spans (ms ++ [.opt]) (.opt p) := by
  apply h.repetition (.inr (.inr rfl))
  · intro table
    show (((p.number table).1.push _).push _).size = (p.number table).1.size + 2
    rw [Array.size_push, Array.size_push]
  · intro alphabet next
    -- two states for the empty word come before the operand, and two more after it.
    show (p.fragment alphabet (next + 2)).next + 2 = next + stateCount ms + 4
    rw [h.states]
    omega

theorem seq (hp : Spans ms p) (hq : Spans ms' q) : Spans (ms ++ ms') (.seq p q) := by
  -- where the two texts meet, an atom ends and another one begins.
  have hjoints : joints (ms ++ ms') = joints ms + joints ms' + 1 := by
    rw [joints_append, hp.ends, hq.begins]
    rfl
  exact
    { begins := hp.begins_append ms'
      ends := hq.ends_append ms
      atoms := by
        have hpatoms := hp.atoms
        have hqatoms := hq.atoms
        rw [List.count_append, List.count_append, hjoints]
        omega
      nodes := fun table => by
        show ((q.number (p.number table).1).1.push _).size = _
        rw [Array.size_push, hq.nodes, hp.nodes, nodeCount_append hjoints]
        omega
      states := fun alphabet next => by
        show (q.fragment alphabet (p.fragment alphabet next).next).next = _
        rw [hq.states, hp.states, stateCount_append, Nat.add_assoc] }

/-- A bar stands between two atoms and keeps them from being a joint. In its place it counts for a
node and two states of its own. -/
theorem alt (hp : Spans ms p) (hq : Spans ms' q) : Spans (ms ++ .bar :: ms') (.alt p q) := by
  have hbar : joints (.bar :: ms') = joints ms' := joints_cons rfl ms'
  have hjoints : joints (ms ++ .bar :: ms') = joints ms + joints (.bar :: ms') :=
    joints_append_cons rfl ms ms'
  exact
    { begins := hp.begins_append _
      ends := by
        rw [← List.singleton_append, ← List.append_assoc]
        exact hq.ends_append _
      atoms := by
        have hpatoms := hp.atoms
        have hqatoms := hq.atoms
        rw [List.count_append, List.count_append, hjoints, hbar, List.count_cons_self,
          List.count_cons_of_ne (by decide)]
        omega
      nodes := fun table => by
        show ((q.number (p.number table).1).1.push _).size = _
        -- the bar has a node of its own.
        have hcount : nodeCount (.bar :: ms') = nodeCount ms' + 1 := by
          simp only [nodeCount, hbar, List.count_cons_self, List.count_cons_of_ne, ne_eq,
            reduceCtorEq, not_false_iff]
          omega
        rw [Array.size_push, hq.nodes, hp.nodes, nodeCount_append (k := 0) hjoints, hcount]
        omega
      states := fun alphabet next => by
        show (q.fragment alphabet (p.fragment alphabet next).next).next + 2 = _
        rw [hq.states, hp.states, stateCount_append, ← List.singleton_append, stateCount_append]
        show _ = next + (stateCount ms + (2 + stateCount ms'))
        omega }

end Spans

/-! ## The marks of a pattern -/

theorem DerivesClassChar.marksFrom_append {text : List Char} {c : Char}
    (h : DerivesClassChar text c) (rest : List Char) :
    marksFrom .inClass (text ++ rest) = marksFrom .inClass rest := by
  cases h with
  | plain hescape hclose => exact marksFrom_inClass_cons hescape hclose rest
  | escaped => exact marksFrom_inClass_escaped c rest

/-- Nothing in a class is marked. -/
theorem DerivesItems.marksFrom_append {items : List Char} {ranges : List (Char × Char)}
    (h : DerivesItems items ranges) (rest : List Char) :
    marksFrom .inClass (items ++ rest) = marksFrom .inClass rest := by
  induction h with
  | nil => rfl
  | single hc _ _ ih => rw [List.append_assoc, hc.marksFrom_append, ih]
  | range hfirst hlast _ _ ih =>
    -- the dash is a character of the class like any other.
    rw [List.append_assoc, hfirst.marksFrom_append, List.cons_append,
      marksFrom_inClass_cons (by decide) (by decide), List.append_assoc, hlast.marksFrom_append, ih]

theorem marks_of_not_mem_signs {c : Char} (h : c ∉ signs) (rest : List Char) :
    marks (c :: rest) = .leaf :: marks rest := by
  have hescape : c ≠ '\\' := fun heq => h (heq ▸ by decide)
  have hclass : c ≠ '[' := fun heq => h (heq ▸ by decide)
  have hleaf : Mark.ofChar c = .leaf := by
    unfold Mark.ofChar
    split <;> first | rfl | exact absurd (by decide) h
  rw [marks_cons hescape hclass, hleaf]

/-- A class is one mark. -/
theorem DerivesItems.marks_bracketed {items : List Char} {ranges : List (Char × Char)}
    (h : DerivesItems items ranges) (rest : List Char) :
    marks ('[' :: (items ++ ']' :: rest)) = .leaf :: marks rest := by
  rw [marks_class, h.marksFrom_append, marksFrom_inClass_close]

/-- A relation of marks and patterns that holds of atoms and is kept by every way to put patterns
together. Parentheses change the marks and nothing else. -/
structure Composes (R : List Mark → Pattern → Prop) : Prop where
  leaf : ∀ p, p.taskCount = 1 → R [.leaf] p
  group : ∀ ms p, R ms p → R (.opened :: (ms ++ [.closed])) p
  star : ∀ ms p, R ms p → R (ms ++ [.star]) (.star p)
  plus : ∀ ms p, R ms p → R (ms ++ [.plus]) (.plus p)
  opt : ∀ ms p, R ms p → R (ms ++ [.opt]) (.opt p)
  seq : ∀ ms ms' p q, R ms p → R ms' q → R (ms ++ ms') (.seq p q)
  alt : ∀ ms ms' p q, R ms p → R ms' q → R (ms ++ .bar :: ms') (.alt p q)

theorem composes_spans : Composes Spans where
  leaf _ := .leaf
  group _ _ := .group
  star _ _ := .star
  plus _ _ := .plus
  opt _ _ := .opt
  seq _ _ _ _ := .seq
  alt _ _ _ _ := .alt

namespace Derives

variable {level : Level} {limit : Nat} {text : List Char} {p : Pattern}
  {R : List Mark → Pattern → Prop}

/-- **The marks of a pattern make it up**, and they are the same whatever comes behind it. The
induction is on the derivation: each rule puts the marks of its parts together in one of the ways
that are counted above. -/
theorem exists_marks (rule : Composes R) (h : Derives level limit text p) :
    ∃ ms, (∀ rest, marks (text ++ rest) = ms ++ marks rest) ∧ R ms p := by
  -- a part of a pattern stands in front of other parts, so its marks have to be found there too.
  induction h with
  | char hc => exact ⟨[.leaf], marks_of_not_mem_signs hc, rule.leaf _ rfl⟩
  | escaped c => exact ⟨[.leaf], marks_escaped c, rule.leaf _ rfl⟩
  | any => exact ⟨[.leaf], fun rest => marks_cons (by decide) (by decide) rest, rule.leaf _ rfl⟩
  | oneOf items =>
    refine ⟨[.leaf], fun rest => ?_, rule.leaf _ rfl⟩
    rw [List.cons_append, List.append_assoc]
    exact items.marks_bracketed rest
  | noneOf items =>
    refine ⟨[.leaf], fun rest => ?_, rule.leaf _ rfl⟩
    rw [List.cons_append, List.cons_append, List.append_assoc, marks_class,
      marksFrom_inClass_cons (by decide) (by decide), ← marks_class]
    exact items.marks_bracketed rest
  | group _ ih =>
    obtain ⟨ms, hmarks, hms⟩ := ih
    refine ⟨_, fun rest => ?_, rule.group ms _ hms⟩
    rw [List.cons_append, marks_cons (by decide) (by decide), List.append_assoc, hmarks,
      List.singleton_append, marks_cons (by decide) (by decide), List.cons_append,
      List.append_assoc]
    rfl
  | once _ ih | single _ ih | only _ ih => exact ih
  | star _ ih =>
    obtain ⟨ms, hmarks, hms⟩ := ih
    exact ⟨_, marks_concat hmarks (by decide) (by decide), rule.star ms _ hms⟩
  | plus _ ih =>
    obtain ⟨ms, hmarks, hms⟩ := ih
    exact ⟨_, marks_concat hmarks (by decide) (by decide), rule.plus ms _ hms⟩
  | opt _ ih =>
    obtain ⟨ms, hmarks, hms⟩ := ih
    exact ⟨_, marks_concat hmarks (by decide) (by decide), rule.opt ms _ hms⟩
  | seq _ _ ihl ihr =>
    obtain ⟨ms, hmarks, hms⟩ := ihl
    obtain ⟨ms', hmarks', hms'⟩ := ihr
    refine ⟨_, fun rest => ?_, rule.seq ms ms' _ _ hms hms'⟩
    rw [List.append_assoc, hmarks, hmarks', List.append_assoc]
  | alt _ _ ihl ihr =>
    obtain ⟨ms, hmarks, hms⟩ := ihl
    obtain ⟨ms', hmarks', hms'⟩ := ihr
    refine ⟨_, fun rest => ?_, rule.alt ms ms' _ _ hms hms'⟩
    rw [List.append_assoc, hmarks, List.cons_append, marks_cons (by decide) (by decide), hmarks',
      List.append_assoc, List.cons_append]
    rfl

theorem of_marks (rule : Composes R) (h : Derives level limit text p) : R (marks text) p := by
  obtain ⟨ms, hmarks, hms⟩ := h.exists_marks rule
  have hall := hmarks []
  rw [List.append_nil, marks_nil, List.append_nil] at hall
  exact hall ▸ hms

theorem spans (h : Derives level limit text p) : Spans (marks text) p :=
  h.of_marks composes_spans

end Derives

/-! ## Sizes -/

/-- **The sizes are counted in the text.** The nodes of the table and the states of both automata
are as many as the atoms, joints and operators of the text come to. They are linear in its length,
however the operators are stacked and nested. -/
theorem size_compile_exact {limit : Nat} {pattern : String} {p : Pattern}
    (h : Pattern.parse limit pattern = .ok p) (alphabet : Alphabet Char) :
    ∃ ms nfa A, ms = marks pattern.toList ∧
      p.nodeTable.nfa? alphabet = some nfa ∧ compile limit alphabet pattern = .ok A ∧
      p.nodeTable.nodes.size = ms.count .leaf + joints ms + ms.count .bar + ms.count .star +
        2 * ms.count .plus + 2 * ms.count .opt ∧
      nfa.size = 2 * ms.count .leaf + 2 * ms.count .bar + 2 * ms.count .star + ms.count .plus +
        4 * ms.count .opt ∧
      A.size = nfa.size ∧
      p.nodeTable.nodes.size + 1 ≤ 2 * pattern.length ∧ A.size + 2 ≤ 4 * pattern.length := by
  have hspans : Spans (marks pattern.toList) p := (derives_of_parseChars h).spans
  have hnodes : p.nodeTable.nodes.size = nodeCount (marks pattern.toList) :=
    (hspans.nodes #[]).trans (Nat.zero_add _)
  have hstates : (Nfa.ofPattern alphabet p).size = stateCount (marks pattern.toList) :=
    (hspans.states alphabet 0).trans (Nat.zero_add _)
  -- what is counted twice or more is made up for by the atoms, which have no joint of their own.
  have hatoms := hspans.atoms
  have hlength : (marks pattern.toList).length ≤ pattern.length := length_marks_le _
  have hcount := count_marks_le (marks pattern.toList)
  rw [nodeCount] at hnodes
  rw [stateCount] at hstates
  refine ⟨_, _, _, rfl, p.nfa?_nodeTable alphabet, compile_eq_ok h, hnodes, hstates, rfl,
    ?_, ?_⟩
  · omega
  · show (Nfa.ofPattern alphabet p).size + 2 ≤ _
    omega

/-- Stacked operators, an operator in a class and an escape in a class. -/
theorem size_compile_exact_stacked : ∃ p nfa A,
    Pattern.parse 1 "(a*b?)++|[^+-z\\]]" = .ok p ∧
      p.nodeTable.nfa? (.ofList ['a', 'b']) = some nfa ∧
      compile 1 (.ofList ['a', 'b']) "(a*b?)++|[^+-z\\]]" = .ok A ∧
      p.nodeTable.nodes.size = 12 ∧ nfa.size = 16 ∧ A.size = 16 := by
  have hparse : Pattern.parse 1 "(a*b?)++|[^+-z\\]]" =
      .ok (.alt (.plus (.plus (.seq (.star (.char 'a')) (.opt (.char 'b')))))
        (.noneOf ⟨[('+', 'z'), (']', ']')]⟩)) := by rfl
  obtain ⟨_, nfa, A, rfl, hnfa, hcompile, hnodes, hstates, hsize, _⟩ :=
    size_compile_exact hparse (.ofList ['a', 'b'])
  exact ⟨_, nfa, A, hparse, hnfa, hcompile, hnodes.trans (by decide), hstates.trans (by decide),
    (hsize.trans hstates).trans (by decide)⟩

end PathSum.Regex
