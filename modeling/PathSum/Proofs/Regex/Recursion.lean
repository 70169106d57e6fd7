import PathSum.Proofs.Regex.Building
import PathSum.Proofs.Regex.Matching
import PathSum.Proofs.Regex.Restriction
import PathSum.Regex.Edges
import PathSum.Regex.Recursion

/-!
# The walk is the recursion

The walk keeps on its stacks what the recursion leaves to its callers: tasks for what they will do,
and ports of what they have built. So from a node on it builds what the recursion builds, and then
it goes on with what was waiting.

* **`NodeTable.Builds.steps`**: what the walk does from a node of any table, by induction on the
  recursion. All tasks, stacks and builders are allowed, since operands are entered with others
  waiting.
* `NodeTable.Builds.unique`: the recursion gives one fragment, because the walk does.
* `Holds.builds`: in the table of a pattern the recursion comes to an end.

**`recursion_exact`** reads off the automaton.
-/

namespace PathSum.Regex

variable {table : NodeTable} {alphabet : Alphabet Char} {id next : Nat} {f g : Fragment}

namespace NodeTable

/-! ## From a node on -/

/-- A node that reads a symbol is built by edges between two new states, one for each character that
it reads, in the order of the alphabet. -/
theorem addLeaf_of_reads? {node : Node} {chars : List Char}
    (hreads : node.reads? alphabet = some chars) (b : Builder) (ports : Ports) :
    b.addLeaf alphabet id ports node = .ok (b.addLabelled ports.start ports.accept chars) := by
  cases node with
  | char | any =>
    cases hreads
    rfl
  | oneOf set =>
    rw [Node.reads?_oneOf] at hreads
    cases hreads
    rfl
  | noneOf set =>
    rw [Node.reads?_noneOf] at hreads
    cases hreads
    rfl
  | empty | seq | alt | star => exact nomatch hreads

/-- Only a node with a number that is in the table is built. -/
theorem Builds.exists_node (h : table.Builds alphabet id next f) :
    ∃ node, table.nodes[id]? = some node := by
  cases h <;> exact ⟨_, ‹table.nodes[id]? = _›⟩

/-- **The walk builds what the recursion builds.** It leaves the ports of the fragment on the stack
and its states and edges in the builder, and goes on with the other tasks. -/
theorem Builds.steps {b : Builder} (h : table.Builds alphabet id b.next f) :
    ∃ cost, ∀ (count : Nat) (tasks : List Task) (stack : List Ports),
      table.steps alphabet (count + cost) ⟨.enter id :: tasks, stack, b⟩ =
        table.steps alphabet count ⟨tasks, f.ports :: stack, b.extend f⟩ := by
  generalize hnext : b.next = next at h
  induction h generalizing b with
  | empty hid =>
    subst hnext
    exact ⟨1, fun _ _ _ => steps_succ_of_step (step_enter_empty hid)⟩
  | symbols hid hreads =>
    subst hnext
    exact ⟨1, fun _ _ _ => steps_succ_of_step (step_enter_symbols hid (addLeaf_of_reads? hreads))⟩
  | seq hid hr hl hright ihl ihr =>
    obtain ⟨node, hnode⟩ := hright.exists_node
    have hplus := checkPlus_eq_false hid hnode fun heq => hr (heq ▸ hnode)
    obtain ⟨costl, hstepsl⟩ := ihl hnext
    obtain ⟨costr, hstepsr⟩ := ihr (b := b.extend _) rfl
    refine ⟨1 + costr + costl + 1, fun count tasks stack => ?_⟩
    rw [← Nat.add_assoc, steps_succ_of_step (step_enter_seq hid hplus), ← Nat.add_assoc, hstepsl,
      ← Nat.add_assoc, hstepsr]
    exact steps_succ_of_step (step_combine_seq hid hplus)
  | alt hid hl hright ihl ihr =>
    obtain ⟨costl, hstepsl⟩ := ihl hnext
    obtain ⟨costr, hstepsr⟩ := ihr (b := b.extend _) rfl
    refine ⟨1 + costr + costl + 1, fun count tasks stack => ?_⟩
    rw [← Nat.add_assoc, steps_succ_of_step (step_enter_alt hid), ← Nat.add_assoc, hstepsl,
      ← Nat.add_assoc, hstepsr]
    exact steps_succ_of_step (step_combine_alt hid)
  | star hid hi ih =>
    obtain ⟨cost, hsteps⟩ := ih hnext
    refine ⟨1 + cost + 1, fun count tasks stack => ?_⟩
    rw [← Nat.add_assoc, steps_succ_of_step (step_enter_star hid), ← Nat.add_assoc, hsteps]
    exact steps_succ_of_step (step_combine_star hid)
  | plus hid hagain hi ih =>
    -- the star is never entered: one fragment is put on the stack and one is taken off it.
    have hplus := checkPlus_eq_true hid hagain
    obtain ⟨cost, hsteps⟩ := ih hnext
    refine ⟨1 + cost + 1, fun count tasks stack => ?_⟩
    rw [← Nat.add_assoc, steps_succ_of_step (step_enter_plus hid hplus), ← Nat.add_assoc, hsteps]
    exact steps_succ_of_step (step_combine_plus hid hplus)

/-- The recursion gives one fragment: the walk comes to its end with it, and the walk has only one
end. -/
theorem Builds.unique (hf : table.Builds alphabet id next f)
    (hg : table.Builds alphabet id next g) : f = g := by
  obtain ⟨cost, hsteps⟩ := hf.steps (b := ⟨next, [], []⟩)
  obtain ⟨cost', hsteps'⟩ := hg.steps (b := ⟨next, [], []⟩)
  have hend := (hsteps cost' [] []).trans (steps_of_done rfl cost')
  have hend' := (hsteps' cost [] []).trans (steps_of_done rfl cost)
  rw [Nat.add_comm cost cost', hend] at hend'
  have hsame := Except.ok.inj hend'
  obtain ⟨fnext, fstart, faccept, fsilent, flabelled⟩ := f
  obtain ⟨gnext, gstart, gaccept, gsilent, glabelled⟩ := g
  simp only [Fragment.ports, Builder.extend, List.nil_append, Building.mk.injEq, List.cons.injEq,
    Ports.mk.injEq, and_true, true_and, Builder.mk.injEq] at hsame
  obtain ⟨⟨rfl, rfl⟩, rfl, rfl, rfl⟩ := hsame
  rfl

/-! ## Labels -/

theorem mem_symbols_of_reads? {node : Node} {chars : List Char} {c : Char}
    (hreads : node.reads? alphabet = some chars) (hc : c ∈ chars) : c ∈ alphabet.symbols := by
  cases node with
  | char | oneOf | noneOf =>
    cases hreads
    exact (List.mem_filter.mp hc).1
  | any =>
    cases hreads
    exact hc
  | empty | seq | alt | star => exact nomatch hreads

/-- All labels are symbols of the alphabet, because a leaf only reads such symbols and joining adds
no labels. -/
theorem Builds.label_mem (h : table.Builds alphabet id next f) {s t : Nat} {c : Char}
    (hedge : (s, c, t) ∈ f.labelled) : c ∈ alphabet.symbols := by
  induction h with
  | empty => exact absurd hedge List.not_mem_nil
  | symbols _ hreads =>
    exact mem_symbols_of_reads? hreads (Fragment.mem_labelled_symbols.mp hedge).1
  | seq _ _ _ _ ihl ihr | alt _ _ _ ihl ihr =>
    obtain hleft | hright := List.mem_append.mp hedge
    · exact ihl hleft
    · exact ihr hright
  | star _ _ ih | plus _ _ _ ih => exact ih hedge

end NodeTable

/-! ## Patterns -/

/-- From the top of a pattern the recursion builds its fragment. The operand of "at least once" is
built one time, although two nodes refer to it. -/
theorem Holds.builds {p : Pattern} (h : Holds table.nodes p id) (next : Nat) :
    table.Builds alphabet id next (p.fragment alphabet next) := by
  induction h generalizing next with
  | char hid | any hid => exact .symbols hid rfl
  | oneOf hid => exact .symbols hid (Node.reads?_oneOf ..)
  | noneOf hid => exact .symbols hid (Node.reads?_noneOf ..)
  | seq _ _ hid hr hne ihl ihr =>
    exact .seq hid (fun heq => hne (Option.some.inj (hr.symm.trans heq))) (ihl next) (ihr _)
  | alt _ _ hid ihl ihr => exact .alt hid (ihl next) (ihr _)
  | star _ hid ih => exact .star hid (ih next)
  | plus _ hagain hid ih => exact .plus hid hagain (ih next)
  | opt _ he hid ih => exact .alt hid (.empty he) (ih (next + 2))

namespace Pattern

theorem builds_nodeTable_iff (p : Pattern) :
    p.nodeTable.Builds alphabet p.nodeTable.root 0 g ↔ g = p.fragment alphabet 0 := by
  have hbuilds : p.nodeTable.Builds alphabet p.nodeTable.root 0 (p.fragment alphabet 0) :=
    (p.numbers_number #[]).holds.builds 0
  constructor
  · intro h
    exact h.unique hbuilds
  · rintro rfl
    exact hbuilds

end Pattern

theorem Nfa.consists_ofPattern (alphabet : Alphabet Char) (p : Pattern) :
    (Nfa.ofPattern alphabet p).Consists (p.fragment alphabet 0) where
  size_eq := rfl
  start_eq := rfl
  accept_eq := rfl
  silent_iff s t := by
    constructor
    · intro hedge
      obtain ⟨hs, ht⟩ := (p.within_fragment alphabet 0).silent_lt s t hedge
      exact ⟨⟨s, hs⟩, ⟨t, ht⟩, silent_ofFragment_iff.mpr hedge, rfl, rfl⟩
    · rintro ⟨i, j, hedge, rfl, rfl⟩
      exact silent_ofFragment_iff.mp hedge
  labelled_iff s c t := by
    constructor
    · intro hedge
      obtain ⟨hs, ht⟩ := (p.within_fragment alphabet 0).labelled_lt s c t hedge
      -- a fragment only has edges for symbols of the alphabet, so the automaton has all of them.
      have hc := (p.builds_nodeTable_iff.mpr rfl).label_mem hedge
      exact ⟨⟨s, hs⟩, ⟨t, ht⟩, labelled_ofFragment_iff.mpr ⟨hc, hedge⟩, rfl, rfl⟩
    · rintro ⟨i, j, hread, rfl, rfl⟩
      exact (labelled_ofFragment_iff.mp hread).2

/-! ## All together -/

/-- **The walk is the recursion.** For the table of an accepted pattern, recursion builds one
fragment. The walk ends with its ports and with its states and edges, in the same order, and the
automaton that is compiled consists of these: it has the same number of states, the same entry and
exit, and the same edges, with a matrix for each symbol of the alphabet. -/
theorem recursion_exact {limit : Nat} {text : String} {p : Pattern}
    (h : Pattern.parse limit text = .ok p) (alphabet : Alphabet Char) :
    ∃ f nfa, (∀ g, p.nodeTable.Builds alphabet p.nodeTable.root 0 g ↔ g = f) ∧
      (∀ count, 2 * p.nodeTable.nodes.size ≤ count →
        p.nodeTable.steps alphabet count (.start p.nodeTable.root) =
          .ok ⟨[], [⟨f.start, f.accept⟩], ⟨f.next, f.silent, f.labelled⟩⟩) ∧
      p.nodeTable.build alphabet = .ok nfa ∧ p.nodeTable.nfa? alphabet = some nfa ∧
      nfa.Consists f ∧ nfa.labelled.keys = alphabet.symbols ∧ nfa.alphabet = alphabet ∧
      compileStages limit alphabet text = nfa.removeSilent.mapError .shape := by
  have hbuild := p.build_nodeTable alphabet
  exact ⟨p.fragment alphabet 0, .ofPattern alphabet p, fun _ => p.builds_nodeTable_iff,
    fun _ => p.steps_nodeTable alphabet, hbuild, p.nfa?_nodeTable alphabet,
    Nfa.consists_ofPattern alphabet p, Nfa.keys_labelled_ofPattern alphabet p, rfl,
    compileStages_eq_removeSilent h hbuild⟩

/-- A repetition within a repetition, with a negated class, a class and the wildcard. Over the
alphabet `b`, `a`, the class of `a` to `c` reads both symbols, in the order of the alphabet, the
negated class reads `b` alone, and the wildcard reads both. -/
theorem recursion_exact_nested : ∃ p nfa, Pattern.parse 1 "([^a][a-c]+.)+" = .ok p ∧
    p.nodeTable.build (.ofList ['b', 'a']) = .ok nfa ∧
    nfa.Consists ⟨8, 0, 7, [(3, 2), (3, 4), (1, 2), (4, 5), (6, 0), (6, 7)],
      [(0, 'b', 1), (2, 'b', 3), (2, 'a', 3), (5, 'b', 6), (5, 'a', 6)]⟩ := by
  have hparse : Pattern.parse 1 "([^a][a-c]+.)+" =
      .ok (.plus (.seq (.seq (.noneOf ⟨[('a', 'a')]⟩) (.plus (.oneOf ⟨[('a', 'c')]⟩))) .any)) := by
    rfl
  obtain ⟨f, nfa, hbuilds, -, hbuild, -, hconsists, -⟩ :=
    recursion_exact hparse (.ofList ['b', 'a'])
  refine ⟨_, nfa, hparse, hbuild, ?_⟩
  have hnegated : (Node.noneOf ⟨[('a', 'a')]⟩).reads? (.ofList ['b', 'a']) = some ['b'] := by
    decide
  have hclass : (Node.oneOf ⟨[('a', 'c')]⟩).reads? (.ofList ['b', 'a']) = some ['b', 'a'] := by
    decide
  -- the relation determines the fragment, so it is the one that is built by hand here.
  have hf : _ = f := (hbuilds _).mp (.plus rfl rfl
    (.seq rfl (by decide) (.seq rfl (by decide) (.symbols rfl hnegated)
      (.plus rfl rfl (.symbols rfl hclass))) (.symbols rfl rfl)))
  subst hf
  exact hconsists

end PathSum.Regex
