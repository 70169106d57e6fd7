import PathSum.Proofs.Regex.Numbering
import PathSum.Proofs.Regex.Recognition
import PathSum.Proofs.Regex.SilentEdges
import PathSum.Regex.Builder

/-!
# Building never fails

Every check on the way from a pattern to its automaton is passed, so a text is refused only by the
reader.

* **`NodeTable.steps_enter`**: the tasks of a pattern, whatever else is on the stacks and in the
  builder. They leave the ports of one fragment on the stack and its edges in the builder. This is
  where the stack is never empty and every node is of the right kind.
* `foldlM_markChecked`, `foldlM_markLabelled`: edges between states that exist are all marked.
* **`Pattern.build_nodeTable`**: so the builder makes the automaton of the pattern.
* **`compileStages_exact`**: all stages together.
-/

namespace PathSum.Regex

/-! ## Tasks -/

/-- Where a fragment is entered and left. -/
def Fragment.ports (f : Fragment) : Ports :=
  ⟨f.start, f.accept⟩

/-- The builder after a fragment with states from `b.next` on. -/
def Builder.extend (b : Builder) (f : Fragment) : Builder where
  next := f.next
  silent := b.silent ++ f.silent
  labelled := b.labelled ++ f.labelled

namespace NodeTable

variable {table : NodeTable} {alphabet : Alphabet Char} {id l r count : Nat} {node : Node}
  {tasks : List Task} {stack : List Ports} {b : Builder} {s t : Building}

theorem lookup_eq_ok (hid : table.nodes[id]? = some node) : table.lookup id = .ok node := by
  simp [lookup, hid]

/-- A sequence whose right part is a star of its left part is the form that `+` has in a table. -/
theorem checkPlus_eq_true (hid : table.nodes[id]? = some (.seq l r))
    (hr : table.nodes[r]? = some (.star l)) : table.checkPlus id = .ok true := by
  simp only [checkPlus, lookup_eq_ok hid, lookup_eq_ok hr, ok_bind, beq_self_eq_true]
  rfl

/-- A sequence of any other form is built as one. -/
theorem checkPlus_eq_false (hid : table.nodes[id]? = some (.seq l r))
    (hr : table.nodes[r]? = some node) (hne : node ≠ .star l) :
    table.checkPlus id = .ok false := by
  simp only [checkPlus, lookup_eq_ok hid, lookup_eq_ok hr, ok_bind, beq_eq_false_iff_ne.mpr hne]
  rfl

theorem checkPlus_alt (hid : table.nodes[id]? = some (.alt l r)) :
    table.checkPlus id = .ok false := by
  simp only [checkPlus, lookup_eq_ok hid, ok_bind]
  rfl

/-! ### Steps -/

theorem steps_succ_of_step (h : table.step alphabet s = .ok t) :
    table.steps alphabet (count + 1) s = table.steps alphabet count t := by
  rw [steps, h]
  rfl

/-- Steps can be counted in two parts. So the walks through the parts of a node are put together
without saying how many steps each of them takes. -/
theorem steps_add (k count : Nat) (s : Building) :
    table.steps alphabet (k + count) s =
      table.steps alphabet k s >>= table.steps alphabet count := by
  induction k generalizing s with
  | zero =>
    rw [Nat.zero_add]
    rfl
  | succ k ih =>
    rw [Nat.succ_add, steps, steps]
    cases table.step alphabet s with
    | error fault => rfl
    | ok t => exact ih t

/-- If many steps can be made, so can fewer. -/
theorem exists_steps_of_le {k : Nat} (h : table.steps alphabet count s = .ok t) (hk : k ≤ count) :
    ∃ u, table.steps alphabet k s = .ok u := by
  obtain ⟨rest, rfl⟩ := Nat.exists_eq_add_of_le hk
  obtain ⟨u, hu, _⟩ := bind_eq_ok_iff.mp ((steps_add k rest s).symm.trans h)
  exact ⟨u, hu⟩

/-- Without tasks there is nothing to do, and the walk stays where it is. -/
theorem steps_of_done (h : s.tasks = []) (count : Nat) : table.steps alphabet count s = .ok s := by
  induction count with
  | zero => rfl
  | succ count ih =>
    have hstep : table.step alphabet s = .ok s := by simp [step, h]
    rw [steps_succ_of_step hstep, ih]

/-! ### One task -/

/-- A sequence first has its left part built, then its right part, and then both are joined. -/
theorem step_enter_seq (hid : table.nodes[id]? = some (.seq l r))
    (hplus : table.checkPlus id = .ok false) :
    table.step alphabet ⟨.enter id :: tasks, stack, b⟩ =
      .ok ⟨.enter l :: .enter r :: .combine id :: tasks, stack, b⟩ := by
  simp only [step, enter, lookup_eq_ok hid, hplus, ok_bind]
  rfl

/-- Of a `+` only the operand is built, and that once. -/
theorem step_enter_plus (hid : table.nodes[id]? = some (.seq l r))
    (hplus : table.checkPlus id = .ok true) :
    table.step alphabet ⟨.enter id :: tasks, stack, b⟩ =
      .ok ⟨.enter l :: .combine id :: tasks, stack, b⟩ := by
  simp only [step, enter, lookup_eq_ok hid, hplus, ok_bind]
  rfl

/-- A choice first has both its parts built, and then they are joined. -/
theorem step_enter_alt (hid : table.nodes[id]? = some (.alt l r)) :
    table.step alphabet ⟨.enter id :: tasks, stack, b⟩ =
      .ok ⟨.enter l :: .enter r :: .combine id :: tasks, stack, b⟩ := by
  simp only [step, enter, lookup_eq_ok hid, checkPlus_alt hid, ok_bind]
  rfl

/-- A star first has its operand built. -/
theorem step_enter_star (hid : table.nodes[id]? = some (.star l)) :
    table.step alphabet ⟨.enter id :: tasks, stack, b⟩ =
      .ok ⟨.enter l :: .combine id :: tasks, stack, b⟩ := by
  simp only [step, enter, lookup_eq_ok hid, ok_bind]
  rfl

/-- A node whose edges the builder knows is built between two new states, and its ports come on top
of the stack. -/
theorem step_enter_leaf (hid : table.nodes[id]? = some node) {after : Builder}
    (hleaf : b.newPorts.2.addLeaf alphabet id b.newPorts.1 node = .ok after) :
    table.step alphabet ⟨.enter id :: tasks, stack, b⟩ =
      .ok ⟨tasks, b.newPorts.1 :: stack, after⟩ := by
  cases node with
  | seq | alt | star => exact nomatch hleaf
  | empty | char | oneOf | noneOf | any =>
    simp only [step, enter, lookup_eq_ok hid, ok_bind, hleaf]
    rfl

/-- A leaf that reads characters is built between two new states, with an edge for each of its
characters. -/
theorem step_enter_symbols (hid : table.nodes[id]? = some node) {symbols : List Char}
    (hleaf : ∀ (b : Builder) (ports : Ports), b.addLeaf alphabet id ports node =
      .ok (b.addLabelled ports.start ports.accept symbols)) :
    table.step alphabet ⟨.enter id :: tasks, stack, b⟩ =
      .ok ⟨tasks, (Fragment.symbols b.next symbols).ports :: stack,
        b.extend (.symbols b.next symbols)⟩ := by
  rw [step_enter_leaf hid (hleaf _ _)]
  simp only [Builder.extend, Fragment.symbols, List.append_nil]
  rfl

theorem step_enter_empty (hid : table.nodes[id]? = some .empty) :
    table.step alphabet ⟨.enter id :: tasks, stack, b⟩ =
      .ok ⟨tasks, (Fragment.empty b.next).ports :: stack, b.extend (.empty b.next)⟩ := by
  rw [step_enter_leaf hid rfl]
  simp only [Builder.extend, Fragment.empty, List.append_nil]
  rfl

section Combine

variable {left right inner : Fragment}

/-- The ports of the two parts are on the stack, the right one on top. A silent edge from the exit
of the one to the entry of the other is all that is added. -/
theorem step_combine_seq (hid : table.nodes[id]? = some (.seq l r))
    (hplus : table.checkPlus id = .ok false) :
    table.step alphabet
        ⟨.combine id :: tasks, right.ports :: left.ports :: stack, (b.extend left).extend right⟩ =
      .ok ⟨tasks, (left.seq right).ports :: stack, b.extend (left.seq right)⟩ := by
  simp only [step, combine, lookup_eq_ok hid, hplus, ok_bind, Building.popPair_cons,
    Builder.extend, Builder.addSilent, Fragment.seq, List.append_assoc]
  rfl

/-- Two new states are added for the choice, with four silent edges. -/
theorem step_combine_alt (hid : table.nodes[id]? = some (.alt l r)) :
    table.step alphabet
        ⟨.combine id :: tasks, right.ports :: left.ports :: stack, (b.extend left).extend right⟩ =
      .ok ⟨tasks, (left.alt right).ports :: stack, b.extend (left.alt right)⟩ := by
  simp only [step, combine, lookup_eq_ok hid, ok_bind, Building.popPair_cons,
    Builder.newPorts_eq, Builder.extend, Builder.addSilent, Fragment.alt, List.append_assoc]
  rfl

/-- Two new states are added for the star, with four silent edges. -/
theorem step_combine_star (hid : table.nodes[id]? = some (.star l)) :
    table.step alphabet ⟨.combine id :: tasks, inner.ports :: stack, b.extend inner⟩ =
      .ok ⟨tasks, inner.star.ports :: stack, b.extend inner.star⟩ := by
  simp only [step, combine, lookup_eq_ok hid, ok_bind, Building.popOne_cons,
    Builder.newPorts_eq, Builder.extend, Builder.addSilent, Fragment.star, List.append_assoc]
  rfl

/-- One new state is added for the `+`, with two silent edges. -/
theorem step_combine_plus (hid : table.nodes[id]? = some (.seq l r))
    (hplus : table.checkPlus id = .ok true) :
    table.step alphabet ⟨.combine id :: tasks, inner.ports :: stack, b.extend inner⟩ =
      .ok ⟨tasks, inner.plus.ports :: stack, b.extend inner.plus⟩ := by
  simp only [step, combine, lookup_eq_ok hid, hplus, ok_bind, Building.popOne_cons,
    if_true, Builder.newState, Builder.extend, Builder.addSilent, Fragment.plus, List.append_assoc]
  rfl

end Combine

/-! ### The tasks of a pattern -/

/-- **The tasks of a pattern pass all checks.** They leave the ports of its fragment on the stack,
its states and edges in the builder, and everything else as it was. -/
theorem steps_enter {pattern : Pattern} (h : Holds table.nodes pattern id) (count : Nat)
    (tasks : List Task) (stack : List Ports) (b : Builder) :
    table.steps alphabet (count + pattern.taskCount) ⟨.enter id :: tasks, stack, b⟩ =
      table.steps alphabet count ⟨tasks, (pattern.fragment alphabet b.next).ports :: stack,
        b.extend (pattern.fragment alphabet b.next)⟩ := by
  -- operands are entered with other tasks waiting, after other states, so the induction is for all
  -- stacks and builders.
  induction h generalizing count tasks stack b with
  | char hid => exact steps_succ_of_step (step_enter_symbols hid fun _ _ => rfl)
  | any hid => exact steps_succ_of_step (step_enter_symbols hid fun _ _ => rfl)
  | oneOf hid => exact steps_succ_of_step (step_enter_symbols hid fun _ _ => rfl)
  | noneOf hid => exact steps_succ_of_step (step_enter_symbols hid fun _ _ => rfl)
  | @seq id l r left right node _ _ hid hr hne ihl ihr =>
    have hplus : table.checkPlus id = .ok false := checkPlus_eq_false hid hr hne
    have hcount : count + (Pattern.seq left right).taskCount =
        count + 1 + right.taskCount + left.taskCount + 1 := by
      simp only [Pattern.taskCount]
      omega
    rw [hcount, steps_succ_of_step (step_enter_seq hid hplus), ihl, ihr]
    exact steps_succ_of_step (step_combine_seq hid hplus)
  | @alt id l r left right _ _ hid ihl ihr =>
    have hcount : count + (Pattern.alt left right).taskCount =
        count + 1 + right.taskCount + left.taskCount + 1 := by
      simp only [Pattern.taskCount]
      omega
    rw [hcount, steps_succ_of_step (step_enter_alt hid), ihl, ihr]
    exact steps_succ_of_step (step_combine_alt hid)
  | @star id x inner _ hid ih =>
    have hcount : count + (Pattern.star inner).taskCount = count + 1 + inner.taskCount + 1 := by
      simp only [Pattern.taskCount]
      omega
    rw [hcount, steps_succ_of_step (step_enter_star hid), ih]
    exact steps_succ_of_step (step_combine_star hid)
  | @plus id x again inner _ hagain hid ih =>
    -- the star that shares the operand is never entered: one fragment is put on the stack and one
    -- is taken off it.
    have hplus : table.checkPlus id = .ok true := checkPlus_eq_true hid hagain
    have hcount : count + (Pattern.plus inner).taskCount = count + 1 + inner.taskCount + 1 := by
      simp only [Pattern.taskCount]
      omega
    rw [hcount, steps_succ_of_step (step_enter_plus hid hplus), ih]
    exact steps_succ_of_step (step_combine_plus hid hplus)
  | @opt id e x inner _ he hid ih =>
    have hcount : count + (Pattern.opt inner).taskCount =
        count + 1 + inner.taskCount + 1 + 1 := by
      simp only [Pattern.taskCount]
      omega
    rw [hcount, steps_succ_of_step (step_enter_alt hid), steps_succ_of_step (step_enter_empty he),
      ih]
    exact steps_succ_of_step (step_combine_alt hid)

end NodeTable

namespace Pattern

/-- The walk from the top of a table ends with one fragment on its stack, and stays there. Twice as
many steps as there are nodes are always enough. -/
theorem steps_nodeTable (pattern : Pattern) (alphabet : Alphabet Char) {count : Nat}
    (hcount : 2 * pattern.nodeTable.nodes.size ≤ count) :
    pattern.nodeTable.steps alphabet count (.start pattern.nodeTable.root) =
      .ok ⟨[], [(pattern.fragment alphabet 0).ports],
        Builder.empty.extend (pattern.fragment alphabet 0)⟩ := by
  have hnum : Numbers pattern #[] pattern.nodeTable.nodes pattern.nodeTable.root :=
    pattern.numbers_number #[]
  have htasks : pattern.taskCount ≤ count := Nat.le_trans (pattern.taskCount_le #[]) hcount
  obtain ⟨spare, rfl⟩ := Nat.exists_eq_add_of_le' htasks
  exact (NodeTable.steps_enter hnum.holds ..).trans (NodeTable.steps_of_done rfl spare)

end Pattern

/-! ## The matrices -/

section Matrices

variable {n : Nat}

/-- Both ends of an edge are states, so the check is passed and the entry is set. -/
theorem markChecked_eq_ok {source target : Nat} (A : Matrix Bool n n) (hs : source < n)
    (ht : target < n) : markChecked A source target = .ok (Graph.mark A (source, target)) := by
  simp [markChecked, Graph.mark, hs, ht]

/-- All silent edges are marked, one after the other, and no check fails, because the states at both
ends exist. -/
theorem foldlM_markChecked {edges : List (Nat × Nat)}
    (inside : ∀ s t, (s, t) ∈ edges → s < n ∧ t < n) (A : Matrix Bool n n) :
    edges.foldlM (fun A edge => markChecked A edge.1 edge.2) A =
      .ok (edges.foldl Graph.mark A) := by
  induction edges generalizing A with
  | nil => rfl
  | cons edge edges ih =>
    obtain ⟨hs, ht⟩ := inside _ _ (List.mem_cons_self ..)
    rw [List.foldlM_cons, markChecked_eq_ok A hs ht, ok_bind]
    exact ih (fun s t h => inside s t (List.mem_cons_of_mem _ h)) _

/-- Edges for symbols that have no matrix are passed over, and each other one is marked in the
matrix of its symbol. -/
theorem foldlM_markLabelled {symbols : List Char} (nodup : symbols.Nodup)
    {edges : List (Nat × Char × Nat)} (inside : ∀ s c t, (s, c, t) ∈ edges → s < n ∧ t < n)
    (value : Char → Matrix Bool n n) :
    edges.foldlM markLabelled (SymbolMap.ofKeys symbols nodup value) =
      .ok (SymbolMap.ofKeys symbols nodup fun c =>
        (edges.filterMap fun (source, label, target) =>
          if label = c then some (source, target) else none).foldl Graph.mark (value c)) := by
  induction edges generalizing value with
  | nil => rfl
  | cons edge edges ih =>
    obtain ⟨s, label, t⟩ := edge
    obtain ⟨hs, ht⟩ := inside s label t (List.mem_cons_self ..)
    replace ih := ih fun s c t h => inside s c t (List.mem_cons_of_mem _ h)
    rw [List.foldlM_cons, markLabelled, SymbolMap.get?_ofKeys]
    by_cases hlabel : label ∈ symbols
    · rw [if_pos hlabel]
      show (markChecked (value label) s t).map _ >>= _ = _
      rw [markChecked_eq_ok _ hs ht]
      show edges.foldlM markLabelled (SymbolMap.insert _ label _) = _
      rw [SymbolMap.insert_ofKeys hlabel, ih]
      -- the edge is the first one for its own symbol and none for any other.
      refine congrArg Except.ok (SymbolMap.ofKeys_congr fun c _ => ?_)
      by_cases hc : label = c
      · subst hc
        simp
      · have hne : ¬ c = label := fun heq => hc heq.symm
        simp [hc, hne]
    · rw [if_neg hlabel]
      show edges.foldlM markLabelled _ = _
      rw [ih]
      refine congrArg Except.ok (SymbolMap.ofKeys_congr fun c hc => ?_)
      have hne : ¬ label = c := fun heq => hlabel (heq ▸ hc)
      simp [hne]

theorem checkState_eq_ok {state : Nat} (h : state < n) : checkState n state = .ok ⟨state, h⟩ :=
  dif_pos h

end Matrices

/-- The states and edges of one fragment make its automaton. A builder that began empty has recorded
nothing besides. -/
theorem Builder.finish_extend_empty {f : Fragment} (within : f.Within 0)
    (alphabet : Alphabet Char) :
    (Builder.empty.extend f).finish alphabet f.ports =
      .ok (.ofFragment alphabet f within.start_mem.2 within.accept_mem.2) := by
  have hsilent := foldlM_markChecked within.silent_lt (.filled f.next f.next false)
  have hlabelled := foldlM_markLabelled alphabet.nodup within.labelled_lt
    fun _ => .filled f.next f.next false
  simp only [finish, extend, empty, List.nil_append, hsilent, hlabelled, ok_bind, Fragment.ports,
    checkState_eq_ok within.start_mem.2, checkState_eq_ok within.accept_mem.2]
  rfl

namespace Pattern

/-- **The builder makes the automaton of the pattern.** -/
theorem build_nodeTable (pattern : Pattern) (alphabet : Alphabet Char) :
    pattern.nodeTable.build alphabet = .ok (.ofPattern alphabet pattern) := by
  rw [NodeTable.build, pattern.steps_nodeTable alphabet (Nat.le_refl _)]
  exact Builder.finish_extend_empty (within_fragment alphabet pattern 0) alphabet

end Pattern

/-! ## All stages -/

variable {limit : Nat} {alphabet : Alphabet Char} {pattern : String}

/-- What is compiled of a pattern that is read and built. -/
theorem compileStages_eq_removeSilent {p : Pattern} {nfa : Nfa}
    (h : Pattern.parse limit pattern = .ok p) (hbuild : p.nodeTable.build alphabet = .ok nfa) :
    compileStages limit alphabet pattern = nfa.removeSilent.mapError .shape := by
  rw [compileStages, h]
  show ((p.nodeTable.build alphabet).mapError _ >>= _) = _
  rw [hbuild]
  rfl

/-- Where the reader accepts a pattern, all later stages succeed. -/
theorem compileStages_eq_ok {p : Pattern} (h : Pattern.parse limit pattern = .ok p) :
    compileStages limit alphabet pattern = .ok (Nfa.ofPattern alphabet p).withoutSilent := by
  rw [compileStages_eq_removeSilent h (p.build_nodeTable alphabet), Nfa.removeSilent_eq_ok]
  rfl

/-- Where the reader refuses a pattern, its error is the error of the whole. -/
theorem compileStages_eq_error {e : ParseError} (h : Pattern.parse limit pattern = .error e) :
    compileStages limit alphabet pattern = .error (.parse e) := by
  rw [compileStages, h]
  rfl

/-- **Compiling fails only in the reader.** The checks of all later stages are passed for every
pattern that is read: no task fails however far the walk has come, it comes to its end and leaves
one fragment, all recorded edges are between states of the builder, and the sizes of all matrices go
together. What comes out is what the stages without checks give. -/
theorem compileStages_exact (limit : Nat) (alphabet : Alphabet Char) (pattern : String) :
    compileStages limit alphabet pattern = (compile limit alphabet pattern).mapError .parse ∧
    (∀ e, compileStages limit alphabet pattern = .error e ↔
      ∃ refused, Pattern.parse limit pattern = .error refused ∧ e = .parse refused) ∧
    ∀ p, Pattern.parse limit pattern = .ok p →
      ∃ root builder nfa A,
        (∀ count, ∃ s,
          p.nodeTable.steps alphabet count (.start p.nodeTable.root) = .ok s) ∧
        (∀ count, 2 * p.nodeTable.nodes.size ≤ count →
          p.nodeTable.steps alphabet count (.start p.nodeTable.root) =
            .ok ⟨[], [root], builder⟩) ∧
        (root.start < builder.next ∧ root.accept < builder.next) ∧
        (∀ s t, (s, t) ∈ builder.silent → s < builder.next ∧ t < builder.next) ∧
        (∀ s c t, (s, c, t) ∈ builder.labelled → s < builder.next ∧ t < builder.next) ∧
        p.nodeTable.build alphabet = .ok nfa ∧ p.nodeTable.nfa? alphabet = some nfa ∧
        nfa.size = builder.next ∧
        nfa.removeSilent = .ok A ∧ A.size = nfa.size ∧
        compileStages limit alphabet pattern = .ok A := by
  refine ⟨?_, fun e => ?_, fun p hp => ?_⟩
  · cases hparse : Pattern.parse limit pattern with
    | error e =>
      rw [compileStages_eq_error hparse, compile, hparse]
      rfl
    | ok p =>
      rw [compileStages_eq_ok hparse, compile_eq_ok hparse]
      rfl
  · cases hparse : Pattern.parse limit pattern with
    | error refused =>
      rw [compileStages_eq_error hparse]
      simp [eq_comm]
    | ok p =>
      rw [compileStages_eq_ok hparse]
      simp
  · have within := p.within_fragment alphabet 0
    have hend {count : Nat} (hcount : 2 * p.nodeTable.nodes.size ≤ count) :=
      p.steps_nodeTable alphabet hcount
    refine ⟨(p.fragment alphabet 0).ports, Builder.empty.extend (p.fragment alphabet 0),
      .ofPattern alphabet p, _, fun count => ?_, fun count => hend,
      ⟨within.start_mem.2, within.accept_mem.2⟩, within.silent_lt, within.labelled_lt,
      p.build_nodeTable alphabet, p.nfa?_nodeTable alphabet, rfl, Nfa.removeSilent_eq_ok _, rfl,
      compileStages_eq_ok hp⟩
    -- the walk gets to its end, so it gets as far as `count` tasks.
    exact NodeTable.exists_steps_of_le (hend (Nat.le_add_left _ count)) (Nat.le_add_right ..)

/-- A walk that shares an operand, and a text that the reader refuses before anything is built. -/
theorem compileStages_exact_shared :
    (∃ p nfa A, Pattern.parse 1 "(a+|b?)*" = .ok p ∧
      p.nodeTable.build (.ofList ['b', 'a', 'b']) = .ok nfa ∧ nfa.size = 13 ∧
      nfa.removeSilent = .ok A ∧ A.size = 13 ∧
      compileStages 1 (.ofList ['b', 'a', 'b']) "(a+|b?)*" = .ok A) ∧
    compileStages 1 (.ofList ['b', 'a', 'b']) "((a" =
      .error (.parse ⟨1, .nestingTooDeep 1⟩) := by
  have hparse : Pattern.parse 1 "(a+|b?)*" =
      .ok (.star (.alt (.plus (.char 'a')) (.opt (.char 'b')))) := by rfl
  have hrefused : Pattern.parse 1 "((a" = .error ⟨1, .nestingTooDeep 1⟩ := by rfl
  obtain ⟨_, _, hok⟩ := compileStages_exact 1 (.ofList ['b', 'a', 'b']) "(a+|b?)*"
  obtain ⟨_, _, nfa, A, _, _, _, _, _, hbuild, hnfa, _, hA, hsize, hcompile⟩ := hok _ hparse
  have hthirteen : nfa.size = 13 := by
    rw [Pattern.nfa?_nodeTable] at hnfa
    exact (congrArg Nfa.size (Option.some.inj hnfa)).symm
  refine ⟨⟨_, nfa, A, hparse, hbuild, hthirteen, hA, hsize.trans hthirteen, hcompile⟩, ?_⟩
  exact ((compileStages_exact 1 _ "((a").2.1 _).mpr ⟨_, hrefused, rfl⟩

end PathSum.Regex
